import SharpTokens.Grammar.Unit

/-!
# Plain programs

A part of the language without attributes, type parameters, base types, bodies that do anything and
initial values: namespaces, types, enumerations, fields, methods and properties. A program is a tree
of its own, apart from the trees that the grammar builds. It says how it is spelled (`Decl.spell`),
what names it declares by that, and which syntax tree it stands for (`Decl.trees`).

A program has no positions. Its words and its syntax tree are functions of it, where the tree is
given the word that it starts at. This makes it the specification that texts are compared with: what
is read of any text that has these words is this tree.
-/

namespace SharpTokens.Program

open Grammar
open Grammar.Words (TypePart)

/-- The identifiers that the grammar takes for something else in some places. -/
def contextualWords : List String :=
  ["alias", "global", "record", "partial", "async", "required", "file", "scoped", "when",
    "yield", "await"]
    ++ Words.queryWords

/-! ## Words

A word that declares a name carries the kind of declaration and the modifiers, so that tokens can be
told from words alone. -/

/-- A word as a program spells it, and what it declares if it is a name that is declared there. -/
structure Spelled where
  kind : Kind
  text : String
  declares : Option (NodeKind × Modifiers)
  deriving DecidableEq

def mark (k : Kind) : Spelled := ⟨k, k.spellings.headD "", none⟩

def used (name : String) : Spelled := ⟨.ident, name, none⟩

def declared (kind : NodeKind) (m : Modifiers) (name : String) : Spelled :=
  ⟨.ident, name, some (kind, m)⟩

/-- Names with marks between them. -/
def divided (divider : Kind) (word : String → Spelled) : List String → List Spelled
  | [] => []
  | name :: names => word name :: names.flatMap fun name => [mark divider, word name]

theorem length_flatMap_divided (divider : Kind) (word : String → Spelled) (names : List String) :
    (names.flatMap fun name => [mark divider, word name]).length = 2 * names.length := by
  induction names with
  | nil => rfl
  | cons name names ih =>
      rw [List.flatMap_cons, List.length_append, ih, List.length_cons]
      simp only [List.length_cons, List.length_nil]
      omega

inductive Modifier where
  /-- `public`, `private` and others that tell where a declaration is seen -/
  | access (text : String)
  | static
  | readonly
  | abstract
  | new
  | unsafeCode
  deriving DecidableEq

def Modifier.word : Modifier → Spelled
  | .access text => ⟨.modifier, text, none⟩
  | .static => mark .staticKw
  | .readonly => mark .readonlyKw
  | .abstract => mark .abstractKw
  | .new => mark .newKw
  | .unsafeCode => mark .unsafeKw

/-- What counts of some modifiers, wherever and however often they stand. -/
def effective (ms : List Modifier) : Modifiers := ⟨.static ∈ ms, .readonly ∈ ms, .abstract ∈ ms⟩

/-! ## Types

One type of terms for types, arguments and segments of names, as they are nested in one another. -/

inductive Suffix where
  | nullable
  /-- an array of one dimension more than there are commas -/
  | array (commas : Nat)

def Suffix.spell : Suffix → List Spelled
  | .nullable => [mark .question]
  | .array commas => mark .lbracket :: (List.replicate commas (mark .comma) ++ [mark .rbracket])

inductive Builtin where
  | predefined (text : String)
  | void

def Builtin.word : Builtin → Spelled
  | .predefined text => ⟨.predefinedType, text, none⟩
  | .void => mark .voidKw

/-- A type, type arguments through the closing `>`, or the segments of a name after its first. -/
inductive TypeTerm : TypePart → Type
  | builtin (b : Builtin) (suffixes : List Suffix) : TypeTerm .type
  | named (name : String) (rest : TypeTerm .segments) (suffixes : List Suffix) : TypeTerm .type
  | applied (name : String) (arguments : TypeTerm .arguments) (rest : TypeTerm .segments)
      (suffixes : List Suffix) :
      TypeTerm .type
  | argument (first : TypeTerm .type) (rest : TypeTerm .arguments) : TypeTerm .arguments
  | lastArgument (last : TypeTerm .type) : TypeTerm .arguments
  | noSegment : TypeTerm .segments
  | segment (name : String) (rest : TypeTerm .segments) : TypeTerm .segments
  | appliedSegment (name : String) (arguments : TypeTerm .arguments) (rest : TypeTerm .segments) :
      TypeTerm .segments

namespace TypeTerm

def spell {part : TypePart} : TypeTerm part → List Spelled
  | builtin b suffixes => b.word :: suffixes.flatMap Suffix.spell
  | named name rest suffixes => used name :: (rest.spell ++ suffixes.flatMap Suffix.spell)
  | applied name arguments rest suffixes =>
    used name :: mark .lt :: (arguments.spell ++ (rest.spell ++ suffixes.flatMap Suffix.spell))
  | argument first rest => first.spell ++ mark .comma :: rest.spell
  | lastArgument last => last.spell ++ [mark .gt]
  | noSegment => []
  | segment name rest => mark .dot :: used name :: rest.spell
  | appliedSegment name arguments rest =>
      mark .dot :: used name :: mark .lt :: (arguments.spell ++ rest.spell)

/-- How deep type arguments nest. -/
def nesting {part : TypePart} : TypeTerm part → Nat
  | builtin _ _ => 0
  | named _ rest _ => rest.nesting
  | applied _ arguments rest _ => max (arguments.nesting + 1) rest.nesting
  | argument first rest => max first.nesting rest.nesting
  | lastArgument last => last.nesting
  | noSegment => 0
  | segment _ rest => rest.nesting
  | appliedSegment _ arguments rest => max (arguments.nesting + 1) rest.nesting

end TypeTerm

/-! ## Declarations

The place says what may stand where, so that no program has a method outside of a type. One
declaration and several are of one family. -/

structure Parameter where
  type : TypeTerm .type
  name : String

def Parameter.spell (p : Parameter) : List Spelled :=
  p.type.spell ++ [declared .parameter .none p.name]

def parameterWords : List Parameter → List Spelled
  | [] => []
  | [p] => p.spell
  | p :: q :: ps => p.spell ++ mark .comma :: parameterWords (q :: ps)

inductive TypeKind where
  | classType
  | structType
  | interfaceType

def TypeKind.keyword : TypeKind → Kind
  | .classType => .classKw
  | .structType => .structKw
  | .interfaceType => .interfaceKw

def TypeKind.node : TypeKind → NodeKind
  | .classType => .classDeclaration
  | .structType => .structDeclaration
  | .interfaceType => .interfaceDeclaration

/-- Where a declaration stands: in a namespace or at the top of a text, or in a type. -/
inductive Place where
  | space
  | type

inductive Count where
  | one
  | many

/-- Declarations that may stand at a place. -/
inductive Decl : Count → Place → Type
  | space (name : String) (more : List String) (body : Decl .many .space) : Decl .one .space
  | type {place : Place} (ms : List Modifier) (kind : TypeKind) (name : String)
      (body : Decl .many .type) :
      Decl .one place
  | enum {place : Place} (ms : List Modifier) (name : String) (values : List String) :
      Decl .one place
  | field (ms : List Modifier) (type : TypeTerm .type) (name : String) (more : List String) :
      Decl .one .type
  | method (ms : List Modifier) (type : TypeTerm .type) (name : String)
      (parameters : List Parameter) (hasBody : Bool) : Decl .one .type
  | property (ms : List Modifier) (type : TypeTerm .type) (name : String) : Decl .one .type
  | nil {place : Place} : Decl .many place
  | cons {place : Place} (first : Decl .one place) (rest : Decl .many place) : Decl .many place

end SharpTokens.Program

/-- A program: what stands at the top of a text. -/
abbrev SharpTokens.Program := SharpTokens.Program.Decl .many .space

namespace SharpTokens.Program

open Grammar
open Grammar.Words (TypePart)

def bodyWords (hasBody : Bool) : List Spelled :=
  if hasBody then [mark .lbrace, mark .rbrace] else [mark .semi]

def accessorWords : List Spelled :=
  [mark .lbrace, used "get", mark .semi, used "set", mark .semi, mark .rbrace]

namespace Decl

/-- The words of declarations, one after another. -/
def spell {count : Count} {place : Place} : Decl count place → List Spelled
  | space name more body =>
    mark .namespaceKw :: (divided .dot (declared .namespaceDeclaration .none) (name :: more)
      ++ mark .lbrace :: (body.spell ++ [mark .rbrace]))
  | type ms kind name body =>
    ms.map Modifier.word ++ mark kind.keyword :: declared kind.node (effective ms) name
      :: mark .lbrace :: (body.spell ++ [mark .rbrace])
  | enum ms name values =>
    ms.map Modifier.word ++ mark .enumKw :: declared .enumDeclaration (effective ms) name
      :: mark .lbrace :: (divided .comma used values ++ [mark .rbrace])
  | field ms t name more =>
    ms.map Modifier.word ++ (t.spell
      ++ (divided .comma (declared .variableDeclarator (effective ms)) (name :: more) ++
        [mark .semi]))
  | method ms t name parameters hasBody =>
    ms.map Modifier.word ++ (t.spell ++ declared .methodDeclaration (effective ms) name
      :: mark .lparen :: (parameterWords parameters ++ mark .rparen :: bodyWords hasBody))
  | property ms t name =>
    ms.map Modifier.word ++ (t.spell ++ declared .propertyDeclaration (effective ms) name ::
      accessorWords)
  | nil => []
  | cons first rest => first.spell ++ rest.spell

/-- How deep braces nest. -/
def braces {count : Count} {place : Place} : Decl count place → Nat
  | space _ _ body => body.braces + 1
  | type _ _ _ body => body.braces + 1
  | enum _ _ _ => 1
  | field _ _ _ _ => 0
  | method _ _ _ _ hasBody => if hasBody then 1 else 0
  | property _ _ _ => 1
  | nil => 0
  | cons first rest => max first.braces rest.braces

/-- How deep the arguments of any type nest. -/
def typeNesting {count : Count} {place : Place} : Decl count place → Nat
  | space _ _ body => body.typeNesting
  | type _ _ _ body => body.typeNesting
  | enum _ _ _ => 0
  | field _ t _ _ => t.nesting
  | method _ t _ parameters _ => parameters.foldr (fun p n => max p.type.nesting n) t.nesting
  | property _ t _ => t.nesting
  | nil => 0
  | cons first rest => max first.typeNesting rest.typeNesting

/-- Each parameter's type nests at most as deep as all of them. -/
theorem nesting_le_foldr (n : Nat) (ps : List Parameter) :
    n ≤ ps.foldr (fun p n => max p.type.nesting n) n ∧
      ∀ p ∈ ps, p.type.nesting ≤ ps.foldr (fun p n => max p.type.nesting n) n := by
  induction ps with
  | nil => simp
  | cons p ps ih =>
      simp only [List.foldr_cons, List.forall_mem_cons]
      refine ⟨?_, ?_, fun q hq => ?_⟩
      · exact Nat.le_trans ih.1 (Nat.le_max_right _ _)
      · exact Nat.le_max_left _ _
      · exact Nat.le_trans (ih.2 q hq) (Nat.le_max_right _ _)

theorem length_spell_pos {place : Place} (decl : Decl .one place) : 0 < decl.spell.length := by
  cases decl <;> simp only [spell, List.length_append, List.length_cons] <;> omega

end Decl

/-! ## Trees

The word that each part starts at is known from the lengths of those before it. -/

def unnamed (kind : NodeKind) (first past : Nat) (m : Modifiers) (children : List Node) : Node :=
  .node ⟨kind, first, past, none, m⟩ children

def named (kind : NodeKind) (first past : Nat) (word : Nat) (name : String) (m : Modifiers)
    (children : List Node) :
    Node :=
  .node ⟨kind, first, past, some (.present word name), m⟩ children

def leaf (kind : NodeKind) (word : Nat) (name : String) : Node :=
  named kind word (word + 1) word name .none []

/-- Nodes of names with one word between them, of which the first is at `word`. -/
def leaves (kind : NodeKind) (word : Nat) : List String → List Node
  | [] => []
  | name :: names => leaf kind word name :: leaves kind (word + 2) names

/-- A dotted name from `first` on, whose further parts follow at the dot at `dot`. -/
def dotted (first : Nat) (found : Node) (dot : Nat) : List String → Node
  | [] => found
  | name :: names =>
    dotted first (unnamed .qualifiedName first (dot + 2) .none [found,
      leaf .identifierName (dot + 1) name])
      (dot + 2) names

def parameterTrees (lo : Nat) : List Parameter → List Node
  | [] => []
  | p :: ps =>
    named .parameter lo (lo + p.spell.length) (lo + p.type.spell.length) p.name .none []
      :: parameterTrees (lo + p.spell.length + 1) ps

def bodyTrees (lo : Nat) (hasBody : Bool) : List Node :=
  if hasBody then [unnamed .block lo (lo + 2) .none []] else []

/-- The syntax trees of declarations from the word at `lo` on. -/
def Decl.trees {count : Count} {place : Place} (lo : Nat) : Decl count place → List Node
  | d@(space name more body) =>
    [unnamed .namespaceDeclaration lo (lo + d.spell.length) .none
      (dotted (lo + 1) (leaf .identifierName (lo + 1) name) (lo + 2) more
        :: body.trees (lo + 2 + 2 * more.length + 1))]
  | d@(type ms kind name body) =>
    [named kind.node lo (lo + d.spell.length) (lo + ms.length + 1) name (effective ms)
      (body.trees (lo + ms.length + 3))]
  | d@(enum ms name values) =>
    [named .enumDeclaration lo (lo + d.spell.length) (lo + ms.length + 1) name (effective ms)
      (leaves .enumMemberDeclaration (lo + ms.length + 3) values)]
  | d@(field ms t name more) =>
    let typeStart := lo + ms.length
    let word := typeStart + t.spell.length
    [unnamed .fieldDeclaration lo (lo + d.spell.length) (effective ms)
      [unnamed .variableDeclaration typeStart (word + 2 * more.length + 1) .none
        (leaves .variableDeclarator word (name :: more))]]
  | d@(method ms t name parameters hasBody) =>
    let word := lo + ms.length + t.spell.length
    let close := word + 2 + (parameterWords parameters).length
    [named .methodDeclaration lo (lo + d.spell.length) word name (effective ms)
      (unnamed .parameterList (word + 1) (close + 1) .none (parameterTrees (word + 2) parameters)
        :: bodyTrees (close + 1) hasBody)]
  | d@(property ms t name) =>
    [named .propertyDeclaration lo (lo + d.spell.length) (lo + ms.length + t.spell.length) name
      (effective ms) []]
  | nil => []
  | cons first rest => first.trees lo ++ rest.trees (lo + first.spell.length)

def tree (p : Program) : Node := unnamed .compilationUnit 0 p.spell.length .none (p.trees 0)

end SharpTokens.Program
