import SharpTokens.Syntax.Declared
import SharpTokens.Token.Basic
import SharpTokens.Token.Legend

/-!
# What a declaration is classed as

Every kind of node has a token type. Tokens are only made of declarations, so the mask of their
modifiers always has the bit for these.
-/

namespace SharpTokens

open Text

def NodeKind.tokenType : NodeKind → TokenType
  | .classDeclaration => .className
  | .interfaceDeclaration => .interfaceName
  | .enumDeclaration => .enumName
  | .structDeclaration => .structName
  | .methodDeclaration => .methodName
  | .propertyDeclaration => .propertyName
  | .variableDeclarator => .variableName
  | .parameter => .parameterName
  | .namespaceDeclaration | .fileScopedNamespaceDeclaration | .qualifiedName | .identifierName =>
    .namespaceName
  | _ => .typeName

def bitIf (present : Bool) (m : TokenModifier) : UInt32 := if present then m.bit else 0

def Modifiers.mask (m : Modifiers) : UInt32 :=
  TokenModifier.declaration.bit ||| bitIf m.isStatic .static ||| bitIf m.isReadonly .readonly
    ||| bitIf m.isAbstract .abstract

/-- The token of a name, in terms of a legend: a type that is not in it gets the last slot, and
modifiers that are not in it are dropped. A name that is not there has none. -/
def Legend.token? (l : Legend) (name : Identifier) (kind : NodeKind) (modifiers : Modifiers) :
    Option Token :=
  if name.isAbsent then none
  else
    let type := kind.tokenType.index
    some ⟨name.start.line, name.start.character, saturate (width name.text.toList),
      if l.containsType type then type else l.fallbackType, modifiers.mask &&& l.modifierMask⟩

end SharpTokens
