import SharpTokens.Text.Blank

/-!
# Legends

A legend is the vocabulary that both ends of a channel share: names of token types, which tokens
refer to by index, and names of token modifiers, of which each has a bit in a mask. The standard
legend has a slot for each kind of declaration that is told apart here; a shorter one makes do with
its last slot for the rest.
-/

namespace SharpTokens

open Text

/-! ### The standard vocabulary

The order of the names is part of what both ends agree on. -/

/-- The token types of the standard legend: each is for the names of one kind of declaration. -/
inductive TokenType where
  | className | interfaceName | enumName | structName | methodName | propertyName | variableName
  | parameterName | namespaceName
  /-- for what has no slot of its own -/
  | typeName
  deriving DecidableEq, Repr

namespace TokenType

def all : List TokenType := [
  .className, .interfaceName, .enumName, .structName, .methodName, .propertyName, .variableName,
  .parameterName, .namespaceName, .typeName]

def name : TokenType → String
  | .className => "class"
  | .interfaceName => "interface"
  | .enumName => "enum"
  | .structName => "struct"
  | .methodName => "method"
  | .propertyName => "property"
  | .variableName => "variable"
  | .parameterName => "parameter"
  | .namespaceName => "namespace"
  | .typeName => "type"

def index : TokenType → UInt32
  | .className => 0
  | .interfaceName => 1
  | .enumName => 2
  | .structName => 3
  | .methodName => 4
  | .propertyName => 5
  | .variableName => 6
  | .parameterName => 7
  | .namespaceName => 8
  | .typeName => 9

end TokenType

inductive TokenModifier where
  | declaration | static | readonly | abstract
  deriving DecidableEq, Repr

namespace TokenModifier

def all : List TokenModifier := [.declaration, .static, .readonly, .abstract]

def name : TokenModifier → String
  | .declaration => "declaration"
  | .static => "static"
  | .readonly => "readonly"
  | .abstract => "abstract"

def bit : TokenModifier → UInt32
  | .declaration => 1
  | .static => 2
  | .readonly => 4
  | .abstract => 8

end TokenModifier

/-! ### Valid names

A legend carries the proof that its names are valid, and the check that gives it says what is wrong
with names that are not. The first fault in the order of the names is the one that is told. -/

/-- One of the two lists of a legend. -/
inductive NameList where
  | types | modifiers
  deriving DecidableEq, Repr

def NameList.entry : NameList → String
  | .types => "token type"
  | .modifiers => "token modifier"

inductive LegendError where
  | empty (list : NameList)
  | blankName (list : NameList) (index : Nat)
  | duplicate (list : NameList) (name : String)
  | tooManyModifiers (count : Nat)
  deriving DecidableEq, Repr

/-- Each modifier has a bit of a 32-bit mask. -/
def Legend.maxModifiers : Nat := 32

def LegendError.message : LegendError → String
  | .empty list => list.entry ++ " list is empty"
  | .blankName list index => list.entry ++ " at index " ++ toString index ++ " is empty"
  | .duplicate list name => "duplicate " ++ list.entry ++ " `" ++ name ++ "`"
  | .tooManyModifiers count =>
    toString count ++ " token modifiers exceed the " ++ toString Legend.maxModifiers ++ "-bit mask"

def isBlankName (name : String) : Bool := name.toList.all isBlank

/-- What the names in either list of a legend have to be. -/
structure ValidNames (names : List String) : Prop where
  nonempty : names ≠ []
  shown : ∀ name ∈ names, isBlankName name = false
  distinct : names.Nodup

/-- The first fault among names that follow those in `seen`, the first of them at `index`. -/
def faultAfter (list : NameList) (seen : List String) (index : Nat) :
    List String → Option LegendError
  | [] => none
  | name :: rest =>
    if isBlankName name then some (.blankName list index)
    else if seen.contains name then some (.duplicate list name)
    else faultAfter list (name :: seen) (index + 1) rest

def firstFault (list : NameList) (names : List String) : Option LegendError :=
  if names.isEmpty then some (.empty list) else faultAfter list [] 0 names

theorem faultAfter_eq_none_iff (list : NameList) (names seen : List String) (index : Nat) :
    faultAfter list seen index names = none ↔
      (∀ name ∈ names, isBlankName name = false ∧ name ∉ seen) ∧ names.Nodup := by
  induction names generalizing seen index with
  | nil => simp [faultAfter]
  | cons name rest ih =>
    simp only [faultAfter]
    split
    · simp_all
    · split
      · simp_all
      · simp_all only [List.mem_cons, List.nodup_cons]
        grind

theorem firstFault_eq_none_iff (list : NameList) (names : List String) :
    firstFault list names = none ↔ ValidNames names := by
  simp only [firstFault]
  split
  · rename_i h
    simp only [reduceCtorEq, false_iff]
    exact fun v => v.nonempty (List.isEmpty_iff.1 h)
  · rename_i h
    rw [faultAfter_eq_none_iff]
    constructor
    · exact fun v => ⟨fun e => h (by simp [e]), fun name m => (v.1 name m).1, v.2⟩
    · exact fun v => ⟨fun name m => ⟨v.shown name m, by simp⟩, v.distinct⟩

/-! ### Legends -/

structure Legend where
  types : List String
  modifiers : List String
  validTypes : ValidNames types
  validModifiers : ValidNames modifiers
  maskable : modifiers.length ≤ Legend.maxModifiers
  deriving DecidableEq

namespace Legend

/-- A legend with given names, or the first fault in them. Types come before modifiers, and names
before their number. -/
def ofNames (types modifiers : List String) : Except LegendError Legend :=
  match ht : firstFault .types types with
  | some e => .error e
  | none =>
    match hm : firstFault .modifiers modifiers with
    | some e => .error e
    | none =>
      if h : modifiers.length ≤ maxModifiers then
        .ok ⟨types, modifiers, (firstFault_eq_none_iff _ _).1 ht,
          (firstFault_eq_none_iff _ _).1 hm, h⟩
      else .error (.tooManyModifiers modifiers.length)

def standard : Legend where
  types := TokenType.all.map TokenType.name
  modifiers := TokenModifier.all.map TokenModifier.name
  validTypes := (firstFault_eq_none_iff .types _).1 (by decide)
  validModifiers := (firstFault_eq_none_iff .modifiers _).1 (by decide)
  maskable := by decide

/-- The last slot, which is for what has none of its own. -/
def fallbackType (l : Legend) : UInt32 := (l.types.length - 1).toUInt32

def modifierMask (l : Legend) : UInt32 := ((1 <<< l.modifiers.length) - 1).toUInt32

def containsType (l : Legend) (type : UInt32) : Bool := type.toNat < l.types.length

def containsModifiers (l : Legend) (mask : UInt32) : Bool := mask &&& ~~~l.modifierMask == 0

def typeIndex? (l : Legend) (name : String) : Option UInt32 :=
  (l.types.idxOf? name).map Nat.toUInt32

/-- The names of the modifiers in a mask, in legend order. -/
def modifierNames (l : Legend) (mask : UInt32) : List String :=
  (l.modifiers.zipIdx.filter fun m => mask.toNat.testBit m.2).map (·.1)

end Legend

end SharpTokens
