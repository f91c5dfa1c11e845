import SharpTokens.Token.Response
import SharpTokens.Proofs.Json.RoundTrip
import SharpTokens.Proofs.Token.Legend

/-!
# Legends are read back

A legend is written as an object with its two lists of names, and is read back from its bytes in
either layout. What is read as a legend is an object in which the two lists stand once each, among
whatever else, or an array of the two (`Legend.lists_iff`). The names in them are checked like any
others, so there is no legend but those that their names make (`Legend.read_back_and_checked`).

Reading a record from an object looks each field up and refuses one that stands twice.
`Legend.Lists` says this of the value, and for arrays that the fields are the first items. The names
are then checked as they would be anywhere else.
-/

namespace SharpTokens

/-! ## Records of two fields

An object may have other members, and its members may be in any order. -/

namespace Json

/-- There is one value under a key. -/
def HasOnce (members : List (Option String × Json)) (key : String) (value : Json) : Prop :=
  ∃ before after, members = before ++ (some key, value) :: after ∧ ∀ m ∈ before ++ after,
    m.1 ≠ some key

/-- What is under a key, if it stands there at most once. -/
def memberOf? (members : List (Option String × Json)) (key : String) : Option (Option Json) :=
  match members.filter (·.1 == some key) with
  | [] => some none
  | [member] => some (some member.2)
  | _ => none

variable {members : List (Option String × Json)} {key first second : String} {value a b json : Json}

/-- A garbled key makes the whole object unusable. -/
theorem fields?_object (names : List String) (members : List (Option String × Json)) :
    (Json.object members).fields? names =
      if members.any (·.1.isNone) then none else names.mapM (memberOf? members) := rfl

/-- A field is found if it stands once. -/
theorem memberOf?_eq_some_iff : memberOf? members key = some (some value) ↔
    HasOnce members key value := by
  have hfound : HasOnce members key value ↔
      members.filter (·.1 == some key) = [(some key, value)] := by
    rw [List.filter_eq_cons_iff]
    simp only [HasOnce, List.filter_eq_nil_iff, beq_iff_eq, List.forall_mem_append, true_and, Ne]
  rw [hfound, memberOf?]
  cases hfilter : members.filter (·.1 == some key) with
  | nil => simp
  | cons member more =>
      -- what is found has the key that was asked for
      have hmem : member ∈ members.filter (·.1 == some key) := by
        rw [hfilter]
        exact List.mem_cons_self
      have hkey : member.1 = some key := eq_of_beq (List.mem_filter.1 hmem).2
      cases more with
      | nil => simp [Prod.ext_iff, hkey]
      | cons other more => simp

/-- What has a value in each of two fields is an object with both keys, or an array of the two. -/
theorem fields?_eq_both_iff : json.fields? [first, second] = some [some a, some b] ↔
    json = .array [a, b] ∨
      ∃ members, json = .object members ∧ (∀ m ∈ members, m.1 ≠ none) ∧
        HasOnce members first a ∧ HasOnce members second b := by
  cases json with
  | object members =>
      have hgarbled : members.any (·.1.isNone) = false ↔ ∀ m ∈ members, m.1 ≠ none := by simp
      simp only [fields?_object, ← memberOf?_eq_some_iff, ← hgarbled, reduceCtorEq, false_or,
        object.injEq, exists_eq_left']
      cases members.any (·.1.isNone) with
      | true => simp
      | false => simp [Option.bind_eq_some_iff]
  | array items =>
      cases items with
      | nil => simp [fields?]
      | cons x items =>
          cases items with
          | nil => simp [fields?]
          | cons y items =>
              cases items with
              | nil => simp [fields?]
              | cons z items => simp [fields?]
  | null | bool | natural | otherNumber | text | garbled => simp [fields?]

end Json

namespace Legend

variable {json : Json} {types modifiers names : List String} {l : Legend}

/-! ## Lists of names

A list of names is an array of strings and of nothing else. -/

/-- Names are read of an array exactly if all of its items are texts, and these are the names. -/
theorem mapM_asText?_eq_some_iff {items : List Json} :
    items.mapM Json.asText? = some names ↔ items = names.map Json.text := by
  induction items generalizing names with
  | nil => cases names with
    | nil => simp
    | cons => simp
  | cons item items ih =>
      cases item with
      | text s =>
          simp only [List.mapM_cons, Json.asText?, Option.bind_eq_bind, Option.bind_some,
            Option.bind_eq_some_iff, ih, Option.pure_def, Option.some.injEq]
          constructor
          · rintro ⟨names, rfl, rfl⟩
            rfl
          · intro h
            cases names with
            | nil => cases h
            | cons name names =>
                cases h
                exact ⟨names, rfl, rfl⟩
      | _ => cases names with
        | nil => simp [Json.asText?]
        | cons => simp [Json.asText?]

/-- The names that a value lists are those it is the list of. -/
theorem namesOfJson?_eq_some_iff : namesOfJson? json = some names ↔ json = namesToJson names := by
  rw [namesToJson]
  cases json with
  | array items => simp [namesOfJson?, Json.asArray?, mapM_asText?_eq_some_iff]
  | null | bool | natural | otherNumber | text | garbled | object =>
      simp [namesOfJson?, Json.asArray?]

theorem namesToJson_inj {names' : List String} :
    namesToJson names = namesToJson names' ↔ names = names' := by
  rw [← namesOfJson?_eq_some_iff, namesOfJson?_eq_some_iff.2 rfl, Option.some_inj]

/-- A value that has two lists of names: an object in which each stands once, in any order and among
other members, or an array of the two. No key of the object may be garbled. -/
inductive Lists (types modifiers : List String) : Json → Prop
  | object {members : List (Option String × Json)} : (∀ m ∈ members, m.1 ≠ none) →
      Json.HasOnce members "tokenTypes" (namesToJson types) →
      Json.HasOnce members "tokenModifiers" (namesToJson modifiers) →
      Lists types modifiers (.object members)
  | array : Lists types modifiers (.array [namesToJson types, namesToJson modifiers])

/-- What the reader finds are the two lists. -/
theorem lists_iff : Lists types modifiers json ↔
    json.fields? ["tokenTypes", "tokenModifiers"] =
    some [some (namesToJson types), some (namesToJson modifiers)] := by
  rw [Json.fields?_eq_both_iff]
  constructor
  · intro h
    cases h with
    | object hkeys htypes hmodifiers => exact .inr ⟨_, rfl, hkeys, htypes, hmodifiers⟩
    | array => exact .inl rfl
  · rintro (rfl | ⟨members, rfl, hkeys, htypes, hmodifiers⟩)
    · exact .array
    · exact .object hkeys htypes hmodifiers

/-- A value has no other lists. -/
theorem Lists.unique {types' modifiers' : List String} (h : Lists types modifiers json)
    (h' : Lists types' modifiers' json) : types = types' ∧ modifiers = modifiers' := by
  have heq := (lists_iff.1 h).symm.trans (lists_iff.1 h')
  simpa only [Option.some_inj, List.cons.injEq, namesToJson_inj, and_true] using heq

/-- **What is read as a legend is the legend of its lists.** -/
theorem ofJson?_eq_some_iff : ofJson? json = some l ↔ Lists l.types l.modifiers json := by
  constructor
  · intro h
    rw [ofJson?] at h
    split at h
    · next types modifiers hfields =>
      simp only [Option.bind_eq_bind, Option.bind_eq_some_iff, namesOfJson?_eq_some_iff] at h
      obtain ⟨types, rfl, modifiers, rfl, hl⟩ := h
      cases hnames : ofNames types modifiers with
      | error e =>
          rw [hnames] at hl
          cases hl
      | ok l' =>
          rw [hnames] at hl
          cases hl
          obtain ⟨rfl, rfl⟩ := ofNames_eq_ok_iff.1 hnames
          exact lists_iff.2 hfields
    · cases h
  · intro h
    have hself : ofNames l.types l.modifiers = .ok l := ofNames_eq_ok_iff.2 ⟨rfl, rfl⟩
    simp only [ofJson?, lists_iff.1 h, namesOfJson?_eq_some_iff.2 rfl, Option.bind_eq_bind,
      Option.bind_some, hself]
    rfl

theorem lists_toJson (l : Legend) : Lists l.types l.modifiers l.toJson := by
  refine .object (by simp) ⟨[], _, rfl, by simp⟩ ⟨[_], [], rfl, by simp⟩

/-- **Legends are read back, and what is read is checked.** A legend that names make is written as
an object with the two lists, and is what its bytes are read as, in either layout. Bytes are read as
a legend exactly if they are a value with two lists of names and these make the legend. So whatever
is read as a legend has names that can be checked again, and lists with a fault are refused however
they are written. -/
theorem read_back_and_checked :
    (∀ types modifiers l layout, ofNames types modifiers = .ok l →
      l.types = types ∧ l.modifiers = modifiers ∧ parse? (l.render layout) = some l ∧
        Json.parse? (l.render layout) = some (.object [
          (some "tokenTypes", .array (types.map Json.text)),
          (some "tokenModifiers", .array (modifiers.map Json.text))])) ∧
    (∀ bytes l, parse? bytes = some l ↔ ∃ json types modifiers, Json.parse? bytes = some json ∧
      Lists types modifiers json ∧ ofNames types modifiers = .ok l) ∧
    (∀ bytes l, parse? bytes = some l → ofNames l.types l.modifiers = .ok l ∧
      ValidNames l.types ∧ ValidNames l.modifiers ∧ l.modifiers.length ≤ 32) ∧
    ∀ bytes json types modifiers e, Json.parse? bytes = some json → Lists types modifiers json →
      ofNames types modifiers = .error e → parse? bytes = none := by
  have hparse (bytes : Bytes) (l : Legend) : parse? bytes = some l ↔ ∃ json types modifiers,
      Json.parse? bytes = some json ∧ Lists types modifiers json ∧
      ofNames types modifiers = .ok l := by
    simp only [parse?, Option.bind_eq_some_iff, ofJson?_eq_some_iff, ofNames_eq_ok_iff]
    constructor
    · rintro ⟨json, hjson, hlists⟩
      exact ⟨json, l.types, l.modifiers, hjson, hlists, rfl, rfl⟩
    · rintro ⟨json, _, _, hjson, hlists, rfl, rfl⟩
      exact ⟨json, hjson, hlists⟩
  refine ⟨?_, hparse, ?_, ?_⟩
  · intro types modifiers l layout hl
    have hjson : Json.parse? (l.render layout) = some l.toJson := Json.parse?_render layout l.toJson
    obtain ⟨rfl, rfl⟩ := ofNames_eq_ok_iff.1 hl
    exact ⟨rfl, rfl, (hparse _ l).2 ⟨_, _, _, hjson, l.lists_toJson, hl⟩, hjson⟩
  · intro bytes l h
    obtain ⟨json, types, modifiers, -, -, hl⟩ := (hparse bytes l).1 h
    obtain ⟨htypes, hmodifiers, hcount⟩ := exists_ofNames_iff.1 ⟨l, hl⟩
    obtain ⟨rfl, rfl⟩ := ofNames_eq_ok_iff.1 hl
    exact ⟨hl, htypes, hmodifiers, hcount⟩
  · intro bytes json types modifiers e hjson hlists hfault
    rw [Option.eq_none_iff_forall_ne_some]
    intro l h
    obtain ⟨json', types', modifiers', hjson', hlists', hl⟩ := (hparse bytes l).1 h
    -- the lists that make the legend would be those with the fault
    cases hjson.symm.trans hjson'
    obtain ⟨rfl, rfl⟩ := hlists.unique hlists'
    cases hfault.symm.trans hl

/-- Quotes, backslashes and control characters are read back. A name that stands twice is found also
where the lists are in another order and among other members. -/
theorem read_back_and_checked_escapes :
    (∃ l, ofNames ["\"\\", "\né"] ["\x01"] = .ok l ∧ parse? (l.render .indented) = some l ∧
      ofNames l.types l.modifiers = .ok l) ∧
    parse? ((Json.object [(some "other", .null), (some "tokenModifiers", namesToJson ["static"]),
      (some "tokenTypes", namesToJson ["class", "class"])]).render .compact) = none := by
  obtain ⟨hwritten, -, hread, hrefused⟩ := read_back_and_checked
  constructor
  · have hvalid : ∃ l, ofNames ["\"\\", "\né"] ["\x01"] = .ok l :=
      exists_ofNames_iff.2 ⟨(firstFault_eq_none_iff .types _).1 (by decide),
        (firstFault_eq_none_iff .modifiers _).1 (by decide), by decide⟩
    obtain ⟨l, hl⟩ := hvalid
    obtain ⟨-, -, hback, -⟩ := hwritten _ _ l .indented hl
    exact ⟨l, hl, hback, (hread _ l hback).1⟩
  · refine hrefused _ _ ["class", "class"] ["static"] (.duplicate .types "class")
      (Json.parse?_render _ _) ?_ ?_
    · exact .object (by simp) ⟨[_, _], [], rfl, by simp⟩ ⟨[_], [_], rfl, by simp⟩
    · exact ofNames_eq_error_iff.2 (.inl (firstFault_eq_some_iff.1 (by decide)))

end Legend

end SharpTokens
