import SharpTokens.Grammar.Unit
import SharpTokens.Lexeme.Lex
import SharpTokens.Text.LineIndex
import SharpTokens.Text.Quoted

/-!
# Source files

A source file is a text that was read: its lexemes, the places of its lexemes, its syntax tree and
its diagnostics. The tree is over words, which are the lexemes without their places; this is where
the two meet.

Errors of lexemes and faults of the grammar are merged by where they start. The sort is stable, so
of two at one place that of the lexemes is first.
-/

namespace SharpTokens

open Text Grammar

/-- The words of some lexemes: each touches the next if there is nothing between them. -/
def wordsOf : List Lexeme → Array Word → Array Word
  | [], found => found
  | [l], found => found.push ⟨l.kind, l.text, false⟩
  | l :: m :: rest, found =>
    wordsOf (m :: rest) (found.push ⟨l.kind, l.text, l.span.stop == m.span.start⟩)

/-- Where the words of a text are: each lexeme, where each starts, and the end of the text. -/
structure Layout where
  lexemes : Array Lexeme
  starts : Array Position
  size : Nat
  stop : Position

namespace Layout

def ofLexemes (ix : LineIndex) (size : Nat) (lexemes : List Lexeme) : Layout :=
  ⟨lexemes.toArray, positions ix (lexemes.map (·.span.start)), size, ix.position size⟩

/-- Where a word starts; past the last one, the end of the text. -/
def start (l : Layout) (word : Nat) : Nat := ((l.lexemes[word]?).map (·.span.start)).getD l.size

def position (l : Layout) (word : Nat) : Position := (l.starts[word]?).getD l.stop

/-- The span of a word; past the last one, the empty span at the end of the text. -/
def span (l : Layout) (word : Nat) : Span := ((l.lexemes[word]?).map (·.span)).getD (.point l.size)

/-- The span of the words from `first` to before `past`. A span never ends before it starts. -/
def spanOf (l : Layout) (first past : Nat) : Span :=
  let start := l.start first
  let stop :=
    match past with
    | 0 => start
    | past + 1 => ((l.lexemes[past]?).map (·.span.stop)).getD start
  ⟨start, max start stop⟩

/-- The span of a node. The root covers the whole text, whatever stands around its words. -/
def nodeSpan (l : Layout) (label : Label) : Span :=
  if label.kind = .compilationUnit then ⟨0, l.size⟩ else l.spanOf label.first label.past

/-- The span of a name. A missing one is an empty span. -/
def nameSpan (l : Layout) : Name → Span
  | .present word _ => l.span word
  | .missing word => .point (l.start word)

def identifier (l : Layout) : Name → Identifier
  | .present word text => ⟨text, l.position word, false⟩
  | .missing word => ⟨"", l.position word, true⟩

def declared (l : Layout) (label : Label) : Declared :=
  ⟨label.kind, label.name.map l.identifier, label.modifiers⟩

end Layout

structure SourceFile where
  layout : Layout
  tree : Grammar.Node
  diagnostics : List Diagnostic

namespace SourceFile

/-- Puts errors in the order of their places; those at one place stay as they were. -/
def inOrder (errors : List (SyntaxError × Span)) : List (SyntaxError × Span) :=
  errors.mergeSort fun a b => a.2.start ≤ b.2.start

def diagnose (ix : LineIndex) (errors : List (SyntaxError × Span)) : List Diagnostic :=
  List.zipWith (fun e position => ⟨e.1, e.2, position⟩) errors
    (positions ix (errors.map (·.2.start))).toList

/-- Reads a text, with constructs nested up to a limit. -/
def ofText (text : List Char) (limit : Nat) : SourceFile :=
  let lexed := Lexed.ofText text
  let ix := LineIndex.ofText text
  let layout := Layout.ofLexemes ix (byteSize text) lexed.lexemes
  let parsed := parse (wordsOf lexed.lexemes #[]) limit
  let errors := lexed.errors ++ parsed.faults.map fun f => (f.cause, layout.span f.word)
  ⟨layout, parsed.tree, diagnose ix (inOrder errors)⟩

/-! ### Outlines

A tree as text, for reading and for comparing trees. -/

/-- The modifiers of a declaration, in brackets and after a space; nothing if there are none. -/
def modifierList (m : Modifiers) : String :=
  let names := (if m.isStatic then ["static"] else []) ++
    (if m.isReadonly then ["readonly"] else [])
    ++ (if m.isAbstract then ["abstract"] else [])
  if names.isEmpty then "" else " [" ++ " ".intercalate names ++ "]"

def nameEntry (i : Identifier) : String :=
  " " ++ (if i.missing then "<missing>" else quoted i.text) ++ " " ++
    toString i.start.line.toNat ++ ":"
    ++ toString i.start.character.toNat

def outlineLine (depth : Nat) (d : Declared) : String :=
  String.ofList (List.replicate (2 * depth) ' ') ++ d.kind.name ++
    (d.identifier.map nameEntry).getD ""
    ++ modifierList d.modifiers ++ "\n"

/-- The tree with one node a line, indented by its depth. -/
def outline (f : SourceFile) : String :=
  f.tree.nodes.foldl (fun text n => text ++ outlineLine n.1 (f.layout.declared n.2)) ""

/-- The kinds and texts of the nodes with a name that is not missing, a node before those below
it. -/
def named (f : SourceFile) : List (NodeKind × String) :=
  f.tree.nodes.filterMap fun n =>
    match n.2.name with
    | some (.present _ text) => some (n.2.kind, text)
    | _ => none

end SourceFile

end SharpTokens
