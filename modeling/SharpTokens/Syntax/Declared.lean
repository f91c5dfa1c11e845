import SharpTokens.Text.Position

/-!
# What the nodes of a syntax tree are

A tree covers declarations and what may contain them. Some kinds of node declare a name; the others
give the tree its shape.

What a declaration is called and which modifiers it has are kept beside its kind, so that tokens can
be made without the words of the text.
-/

namespace SharpTokens

open Text

inductive NodeKind where
  | compilationUnit | usingDirective | attributeList | namespaceDeclaration
  | fileScopedNamespaceDeclaration | qualifiedName | identifierName | classDeclaration
  | interfaceDeclaration | structDeclaration | recordDeclaration | enumDeclaration
  | enumMemberDeclaration | delegateDeclaration | fieldDeclaration | eventFieldDeclaration
  | eventDeclaration | propertyDeclaration | indexerDeclaration | methodDeclaration
  | constructorDeclaration | destructorDeclaration | operatorDeclaration | parameterList
  | parameter | variableDeclaration | variableDeclarator | block | localDeclarationStatement
  | localFunctionStatement | statement | lambdaExpression | anonymousMethodExpression
  | skippedTokens
  deriving DecidableEq, Repr

namespace NodeKind

def all : List NodeKind := [
  .compilationUnit, .usingDirective, .attributeList, .namespaceDeclaration,
  .fileScopedNamespaceDeclaration, .qualifiedName, .identifierName, .classDeclaration,
  .interfaceDeclaration, .structDeclaration, .recordDeclaration, .enumDeclaration,
  .enumMemberDeclaration, .delegateDeclaration, .fieldDeclaration, .eventFieldDeclaration,
  .eventDeclaration, .propertyDeclaration, .indexerDeclaration, .methodDeclaration,
  .constructorDeclaration, .destructorDeclaration, .operatorDeclaration, .parameterList,
  .parameter, .variableDeclaration, .variableDeclarator, .block, .localDeclarationStatement,
  .localFunctionStatement, .statement, .lambdaExpression, .anonymousMethodExpression,
  .skippedTokens]

def name : NodeKind → String
  | .compilationUnit => "CompilationUnit"
  | .usingDirective => "UsingDirective"
  | .attributeList => "AttributeList"
  | .namespaceDeclaration => "NamespaceDeclaration"
  | .fileScopedNamespaceDeclaration => "FileScopedNamespaceDeclaration"
  | .qualifiedName => "QualifiedName"
  | .identifierName => "IdentifierName"
  | .classDeclaration => "ClassDeclaration"
  | .interfaceDeclaration => "InterfaceDeclaration"
  | .structDeclaration => "StructDeclaration"
  | .recordDeclaration => "RecordDeclaration"
  | .enumDeclaration => "EnumDeclaration"
  | .enumMemberDeclaration => "EnumMemberDeclaration"
  | .delegateDeclaration => "DelegateDeclaration"
  | .fieldDeclaration => "FieldDeclaration"
  | .eventFieldDeclaration => "EventFieldDeclaration"
  | .eventDeclaration => "EventDeclaration"
  | .propertyDeclaration => "PropertyDeclaration"
  | .indexerDeclaration => "IndexerDeclaration"
  | .methodDeclaration => "MethodDeclaration"
  | .constructorDeclaration => "ConstructorDeclaration"
  | .destructorDeclaration => "DestructorDeclaration"
  | .operatorDeclaration => "OperatorDeclaration"
  | .parameterList => "ParameterList"
  | .parameter => "Parameter"
  | .variableDeclaration => "VariableDeclaration"
  | .variableDeclarator => "VariableDeclarator"
  | .block => "Block"
  | .localDeclarationStatement => "LocalDeclarationStatement"
  | .localFunctionStatement => "LocalFunctionStatement"
  | .statement => "Statement"
  | .lambdaExpression => "LambdaExpression"
  | .anonymousMethodExpression => "AnonymousMethodExpression"
  | .skippedTokens => "SkippedTokens"

/-- Kinds that declare the name they carry. Namespaces declare each part of their name instead. -/
def isDeclaration : NodeKind → Bool
  | .classDeclaration | .interfaceDeclaration | .enumDeclaration | .structDeclaration
  | .methodDeclaration | .propertyDeclaration | .variableDeclarator | .parameter => true
  | _ => false

def isNamespace : NodeKind → Bool
  | .namespaceDeclaration | .fileScopedNamespaceDeclaration => true
  | _ => false

/-- What the name of a namespace is made of. -/
def isName : NodeKind → Bool
  | .qualifiedName | .identifierName => true
  | _ => false

/-- Declarations whose modifiers count for the variables declared in them. -/
def isVariableOwner : NodeKind → Bool
  | .fieldDeclaration | .localDeclarationStatement => true
  | _ => false

end NodeKind

/-- The modifiers of a declaration that a legend can express. -/
structure Modifiers where
  isStatic : Bool
  isReadonly : Bool
  isAbstract : Bool
  deriving DecidableEq, Repr

def Modifiers.none : Modifiers := ⟨false, false, false⟩

/-- The name in a declaration: what it says and where. A name that the grammar looked for in vain is
marked as missing. -/
structure Identifier where
  text : String
  start : Position
  missing : Bool
  deriving DecidableEq, Repr

def Identifier.isAbsent (i : Identifier) : Bool := i.missing || i.text.isEmpty

/-- What a node says about a declaration. -/
structure Declared where
  kind : NodeKind
  identifier : Option Identifier
  modifiers : Modifiers
  deriving DecidableEq, Repr

end SharpTokens
