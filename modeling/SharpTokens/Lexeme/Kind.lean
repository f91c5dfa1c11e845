/-!
# Kinds of lexemes

A keyword or a mark that the grammar looks for has a kind of its own; the others share one: access
and inheritance modifiers, the names of built-in types, words that only occur in expressions, and
operators. Words that are keywords only in some places (`var`, `record`, `get`, `async`, …) are
identifiers.

The table of spellings is the only place where words and marks are listed; the rules for lexemes are
made from it.
-/

namespace SharpTokens

inductive Kind where
  | whitespace | lineComment | blockComment | directive | namespaceKw | usingKw | externKw
  | classKw | structKw | interfaceKw | enumKw | delegateKw | eventKw | operatorKw | implicitKw
  | explicitKw | staticKw | readonlyKw | abstractKw | constKw | newKw | unsafeKw | fixedKw
  | modifier | thisKw | refKw | outKw | inKw | paramsKw | voidKw | predefinedType | ifKw | elseKw
  | forKw | foreachKw | whileKw | doKw | switchKw | caseKw | defaultKw | breakKw | continueKw
  | gotoKw | returnKw | throwKw | tryKw | catchKw | finallyKw | lockKw | checkedKw | uncheckedKw
  | keyword | ident | number | string | char | lbrace | rbrace | lparen | rparen | lbracket
  | rbracket | semi | comma | dot | colon | colonColon | question | arrow | eq | lt | gt | star
  | tilde | punct
  deriving DecidableEq, Repr

namespace Kind

def all : List Kind := [
  .whitespace, .lineComment, .blockComment, .directive, .namespaceKw, .usingKw, .externKw,
  .classKw, .structKw, .interfaceKw, .enumKw, .delegateKw, .eventKw, .operatorKw, .implicitKw,
  .explicitKw, .staticKw, .readonlyKw, .abstractKw, .constKw, .newKw, .unsafeKw, .fixedKw,
  .modifier, .thisKw, .refKw, .outKw, .inKw, .paramsKw, .voidKw, .predefinedType, .ifKw, .elseKw,
  .forKw, .foreachKw, .whileKw, .doKw, .switchKw, .caseKw, .defaultKw, .breakKw, .continueKw,
  .gotoKw, .returnKw, .throwKw, .tryKw, .catchKw, .finallyKw, .lockKw, .checkedKw, .uncheckedKw,
  .keyword, .ident, .number, .string, .char, .lbrace, .rbrace, .lparen, .rparen, .lbracket,
  .rbracket, .semi, .comma, .dot, .colon, .colonColon, .question, .arrow, .eq, .lt, .gt, .star,
  .tilde, .punct]

def name : Kind → String
  | .whitespace => "Whitespace"
  | .lineComment => "LineComment"
  | .blockComment => "BlockComment"
  | .directive => "Directive"
  | .namespaceKw => "Namespace"
  | .usingKw => "Using"
  | .externKw => "Extern"
  | .classKw => "Class"
  | .structKw => "Struct"
  | .interfaceKw => "Interface"
  | .enumKw => "Enum"
  | .delegateKw => "Delegate"
  | .eventKw => "Event"
  | .operatorKw => "Operator"
  | .implicitKw => "Implicit"
  | .explicitKw => "Explicit"
  | .staticKw => "Static"
  | .readonlyKw => "Readonly"
  | .abstractKw => "Abstract"
  | .constKw => "Const"
  | .newKw => "New"
  | .unsafeKw => "Unsafe"
  | .fixedKw => "Fixed"
  | .modifier => "Modifier"
  | .thisKw => "This"
  | .refKw => "Ref"
  | .outKw => "Out"
  | .inKw => "In"
  | .paramsKw => "Params"
  | .voidKw => "Void"
  | .predefinedType => "PredefinedType"
  | .ifKw => "If"
  | .elseKw => "Else"
  | .forKw => "For"
  | .foreachKw => "Foreach"
  | .whileKw => "While"
  | .doKw => "Do"
  | .switchKw => "Switch"
  | .caseKw => "Case"
  | .defaultKw => "Default"
  | .breakKw => "Break"
  | .continueKw => "Continue"
  | .gotoKw => "Goto"
  | .returnKw => "Return"
  | .throwKw => "Throw"
  | .tryKw => "Try"
  | .catchKw => "Catch"
  | .finallyKw => "Finally"
  | .lockKw => "Lock"
  | .checkedKw => "Checked"
  | .uncheckedKw => "Unchecked"
  | .keyword => "Keyword"
  | .ident => "Ident"
  | .number => "Number"
  | .string => "String"
  | .char => "Char"
  | .lbrace => "LBrace"
  | .rbrace => "RBrace"
  | .lparen => "LParen"
  | .rparen => "RParen"
  | .lbracket => "LBracket"
  | .rbracket => "RBracket"
  | .semi => "Semi"
  | .comma => "Comma"
  | .dot => "Dot"
  | .colon => "Colon"
  | .colonColon => "ColonColon"
  | .question => "Question"
  | .arrow => "Arrow"
  | .eq => "Eq"
  | .lt => "Lt"
  | .gt => "Gt"
  | .star => "Star"
  | .tilde => "Tilde"
  | .punct => "Punct"

/-- The texts of a kind that has only a few. -/
def spellings : Kind → List String
  | .namespaceKw => ["namespace"]
  | .usingKw => ["using"]
  | .externKw => ["extern"]
  | .classKw => ["class"]
  | .structKw => ["struct"]
  | .interfaceKw => ["interface"]
  | .enumKw => ["enum"]
  | .delegateKw => ["delegate"]
  | .eventKw => ["event"]
  | .operatorKw => ["operator"]
  | .implicitKw => ["implicit"]
  | .explicitKw => ["explicit"]
  | .staticKw => ["static"]
  | .readonlyKw => ["readonly"]
  | .abstractKw => ["abstract"]
  | .constKw => ["const"]
  | .newKw => ["new"]
  | .unsafeKw => ["unsafe"]
  | .fixedKw => ["fixed"]
  | .modifier => ["public", "private", "protected", "internal", "sealed", "virtual", "override",
    "volatile"]
  | .thisKw => ["this"]
  | .refKw => ["ref"]
  | .outKw => ["out"]
  | .inKw => ["in"]
  | .paramsKw => ["params"]
  | .voidKw => ["void"]
  | .predefinedType => ["bool", "byte", "sbyte", "char", "decimal", "double", "float", "int",
    "uint", "long", "ulong", "short", "ushort", "object", "string"]
  | .ifKw => ["if"]
  | .elseKw => ["else"]
  | .forKw => ["for"]
  | .foreachKw => ["foreach"]
  | .whileKw => ["while"]
  | .doKw => ["do"]
  | .switchKw => ["switch"]
  | .caseKw => ["case"]
  | .defaultKw => ["default"]
  | .breakKw => ["break"]
  | .continueKw => ["continue"]
  | .gotoKw => ["goto"]
  | .returnKw => ["return"]
  | .throwKw => ["throw"]
  | .tryKw => ["try"]
  | .catchKw => ["catch"]
  | .finallyKw => ["finally"]
  | .lockKw => ["lock"]
  | .checkedKw => ["checked"]
  | .uncheckedKw => ["unchecked"]
  | .keyword => ["base", "true", "false", "null", "typeof", "sizeof", "is", "as", "stackalloc"]
  | .lbrace => ["\x7b"]
  | .rbrace => ["\x7d"]
  | .lparen => ["("]
  | .rparen => [")"]
  | .lbracket => ["["]
  | .rbracket => ["]"]
  | .semi => [";"]
  | .comma => [","]
  | .dot => ["."]
  | .colon => [":"]
  | .colonColon => ["::"]
  | .question => ["?"]
  | .arrow => ["=>"]
  | .eq => ["="]
  | .lt => ["<"]
  | .gt => [">"]
  | .star => ["*"]
  | .tilde => ["~"]
  | .punct => ["+", "-", "/", "%", "&", "|", "^", "!"]
  | _ => []

/-- How a message refers to a kind: by its text if there is just one, else in words. -/
def describe : Kind → String
  | .whitespace => "whitespace"
  | .lineComment | .blockComment => "comment"
  | .directive => "directive"
  | .modifier => "modifier"
  | .predefinedType => "type keyword"
  | .keyword => "keyword"
  | .ident => "identifier"
  | .number => "number"
  | .string => "string"
  | .char => "character literal"
  | .punct => "operator"
  | k => "`" ++ "".intercalate k.spellings ++ "`"

/-! ### Classes of kinds -/

/-- Text between lexemes, which the grammar never sees. -/
def isTrivia : Kind → Bool
  | .whitespace | .lineComment | .blockComment | .directive => true
  | _ => false

def isMemberModifier : Kind → Bool
  | .staticKw | .readonlyKw | .abstractKw | .modifier | .newKw | .externKw | .unsafeKw
  | .fixedKw => true
  | _ => false

def isTypeKeyword : Kind → Bool
  | .classKw | .structKw | .interfaceKw | .enumKw | .delegateKw => true
  | _ => false

def isOpener : Kind → Bool
  | .lbrace | .lparen | .lbracket => true
  | _ => false

def isCloser : Kind → Bool
  | .rbrace | .rparen | .rbracket => true
  | _ => false

end Kind

end SharpTokens
