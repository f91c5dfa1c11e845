import SharpTokens.Proofs.Json.Scalars

/-!
# JSON is read back

What is written of a JSON value is read as the same value, in either layout (`parse?_render`). The
writer adds to an array of bytes and the reader counts its calls, so both are first brought to a
form without: `written` is the list of bytes that the writer adds, and a value is read within twice
as many calls as it has bytes.

The call count of the reader is the only thing that grows with the nesting of a value: each item and
each member takes a call, and so does each list. Since every one of them has a byte of its own, two
calls for each byte are enough, and the induction carries that bound with it (`Json.IsReadBack`).
-/

namespace SharpTokens.Json

open Text

/-! ## What the writer adds

One equation for each function of the writer: behind what was written before, it adds the bytes of
the function without an accumulator. -/

def Layout.space (l : Layout) (level : Nat) : Bytes :=
  match l with
  | .compact => []
  | .indented => byte '\n' :: List.replicate (2 * level) (byte ' ')

def Layout.divider (l : Layout) : Bytes :=
  match l with
  | .compact => [byte ':']
  | .indented => [byte ':', byte ' ']

def keyBody : Option String → Bytes
  | some s => quotedBody s ++ [byte '"']
  | none => ascii "\\ud800\""

mutual

/-- The bytes of a value at some level. -/
def written (l : Layout) (level : Nat) : Json → Bytes
  | .null => ascii "null"
  | .bool true => ascii "true"
  | .bool false => ascii "false"
  | .natural n => numeral n
  | .otherNumber => ascii "-1"
  | .text s => byte '"' :: keyBody (some s)
  | .garbled => byte '"' :: keyBody none
  | .array [] => ascii "[]"
  | .array (item :: items) =>
    byte '[' :: (l.space (level + 1) ++ (written l (level + 1) item ++ (writtenItems l level items
      ++ (l.space level ++ [byte ']']))))
  | .object [] => [byte '\x7b', byte '\x7d']
  | .object (member :: members) =>
    byte '\x7b' :: (l.space (level + 1) ++
      (writtenMember l level member ++ (writtenMembers l level members
      ++ (l.space level ++ [byte '\x7d']))))

def writtenItems (l : Layout) (level : Nat) : List Json → Bytes
  | [] => []
  | item :: items =>
    byte ',' :: (l.space (level + 1) ++ (written l (level + 1) item ++ writtenItems l level items))

def writtenMember (l : Layout) (level : Nat) : Option String × Json → Bytes
  | (key, item) => byte '"' :: (keyBody key ++ (l.divider ++ written l (level + 1) item))

def writtenMembers (l : Layout) (level : Nat) : List (Option String × Json) → Bytes
  | [] => []
  | member :: members =>
    byte ',' :: (l.space (level + 1) ++
      (writtenMember l level member ++ writtenMembers l level members))

end

theorem lineBreak_toList (l : Layout) (level : Nat) (out : Array UInt8) :
    (l.lineBreak level out).toList = out.toList ++ l.space level := by
  cases l with
  | compact => exact (List.append_nil _).symm
  | indented => simp [Layout.lineBreak, Layout.space]

theorem colon_toList (l : Layout) (out : Array UInt8) :
    (l.colon out).toList = out.toList ++ l.divider := by
  cases l with
  | compact => simp [Layout.colon, Layout.divider]
  | indented => simp [Layout.colon, Layout.divider, ascii]

/-- A garbled key is written as a string that no text is read from. -/
theorem writeKey_toList (out : Array UInt8) (key : Option String) :
    (writeKey out key).toList = out.toList ++ byte '"' :: keyBody key := by
  cases key with
  | none => simp [writeKey, writeGarbled, keyBody, ascii]
  | some s =>
      have hfold : ∀ (cs : List Char) (out : Array UInt8),
          (cs.foldl (fun (out : Array UInt8) c => out ++ escaped c) out).toList
            = out.toList ++ cs.flatMap escaped := by
        intro cs
        induction cs with
        | nil => simp
        | cons c cs ih => simp [ih]
      simp [writeKey, writeText, hfold, keyBody, quotedBody]

mutual

/-- Writing appends to what is there. -/
theorem writeTo_toList (l : Layout) (level : Nat) (out : Array UInt8) (json : Json) :
    (writeTo l level out json).toList = out.toList ++ written l level json := by
  match json with
  | .null => simp [writeTo, written]
  | .bool true => simp [writeTo, written]
  | .bool false => simp [writeTo, written]
  | .natural n => simp [writeTo, written, numeral]
  | .otherNumber => simp [writeTo, written]
  | .text s => rw [writeTo, written, ← writeKey_toList]; rfl
  | .garbled => rw [writeTo, written, ← writeKey_toList]; rfl
  | .array [] => simp [writeTo, written]
  | .array (item :: items) =>
    simp [writeTo, written, lineBreak_toList, writeTo_toList l (level + 1) _ item,
      writeItems_toList l level _ items]
  | .object [] => simp [writeTo, written]
  | .object (member :: members) =>
    simp [writeTo, written, lineBreak_toList, writeMember_toList l level _ member,
      writeMembers_toList l level _ members]

theorem writeItems_toList (l : Layout) (level : Nat) (out : Array UInt8) (items : List Json) :
    (writeItems l level out items).toList = out.toList ++ writtenItems l level items := by
  match items with
  | [] => simp [writeItems, writtenItems]
  | item :: items =>
    simp [writeItems, writtenItems, lineBreak_toList, writeTo_toList l (level + 1) _ item,
      writeItems_toList l level _ items]

theorem writeMember_toList (l : Layout) (level : Nat) (out : Array UInt8)
    (member : Option String × Json) :
    (writeMember l level out member).toList = out.toList ++ writtenMember l level member := by
  match member with
  | (key, item) =>
    simp [writeMember, writtenMember, colon_toList, writeKey_toList,
      writeTo_toList l (level + 1) _ item]

theorem writeMembers_toList (l : Layout) (level : Nat) (out : Array UInt8)
    (members : List (Option String × Json)) :
    (writeMembers l level out members).toList = out.toList ++ writtenMembers l level members := by
  match members with
  | [] => simp [writeMembers, writtenMembers]
  | member :: members =>
    simp [writeMembers, writtenMembers, lineBreak_toList, writeMember_toList l level _ member,
      writeMembers_toList l level _ members]

end

theorem render_eq (l : Layout) (json : Json) : json.render l = written l 0 json := by
  rw [render, writeTo_toList]
  rfl

/-! ## Symbols and space

A reader passes over space before a symbol, and the layout puts none where it would matter. -/

theorem pastSpace_cons {b : UInt8} (h : isSpace b = false) (rest : Bytes) :
    pastSpace (b :: rest) = b :: rest := by
  rw [pastSpace, List.dropWhile_cons, h]
  rfl

/-- What the layout puts before an item is space. -/
theorem pastSpace_space (l : Layout) (level : Nat) (rest : Bytes) :
    pastSpace (l.space level ++ rest) = pastSpace rest := by
  refine List.dropWhile_append_of_pos ?_
  intro b hb
  cases l with
  | compact => cases hb
  | indented =>
      rcases List.mem_cons.1 hb with rfl | hb
      · rfl
      · rw [List.eq_of_mem_replicate hb]
        rfl

/-- A symbol is found behind the space of a layout. -/
theorem pastSymbol?_eq {c : Char} (h : isSpace (byte c) = false) (l : Layout) (level : Nat)
    (rest : Bytes) :
    pastSymbol? c (l.space level ++ byte c :: rest) = some rest := by
  rw [pastSymbol?, pastSpace_space, pastSpace_cons h]
  exact if_pos rfl

/-- Another one is not. -/
theorem pastSymbol?_ne {c : Char} {b : UInt8} (h : isSpace b = false) (hne : b ≠ byte c)
    (l : Layout) (level : Nat) (rest : Bytes) :
    pastSymbol? c (l.space level ++ b :: rest) = none := by
  rw [pastSymbol?, pastSpace_space, pastSpace_cons h]
  exact if_neg hne

theorem pastWord?_append (word rest : Bytes) : pastWord? word (word ++ rest) = some rest := by
  rw [pastWord?, if_pos (List.isPrefixOf_iff_prefix.2 (List.prefix_append word rest)),
    List.drop_left]

/-- Space before a value does not matter. -/
theorem value?_space (n : Nat) (l : Layout) (level : Nat) (rest : Bytes) :
    value? n (l.space level ++ rest) = value? n rest := by
  cases n with
  | zero => rfl
  | succ n => rw [value?, value?, pastSpace_space]

/-- Between a key and its value there is a colon, with or without a space. -/
theorem value?_divider (n : Nat) (l : Layout) (rest : Bytes) :
    (pastSymbol? ':' (l.divider ++ rest)).bind (value? n) = value? n rest := by
  cases l with
  | compact => rfl
  | indented =>
      cases n with
      | zero => rfl
      | succ n =>
          show value? (n + 1) (byte ' ' :: rest) = value? (n + 1) rest
          rw [value?, value?]
          rfl

/-- A key is read back, be it garbled or not. -/
theorem string?_keyBody (key : Option String) (rest : Bytes) :
    string? (keyBody key ++ rest) = some (key, rest) := by
  cases key with
  | none =>
      have hbody : keyBody none
          = [byte '\\', byte 'u', byte 'd', byte '8', byte '0', byte '0', byte '"'] := by
        simp [keyBody, ascii]
      have hread : readPieces (keyBody none ++ rest) #[] = some (#[.unit 0xD800], rest) := by
        rw [hbody]
        exact (readPieces_unit rfl _ _).trans (readPieces_quote rest _)
      have htext : pieceText? #[.unit 0xD800] = none := by
        rw [pieceText?, pieceBytes?.eq_def]
        rfl
      rw [string?, hread, Option.map_some, htext]
  | some s => rw [keyBody, List.append_assoc]; exact string?_quotedBody s rest

/-- A value ends before a symbol, with or without space between. -/
theorem ends_space (l : Layout) (level : Nat) {c : Char} (rest : Bytes)
    (h : isDigit (byte c) = false ∧ byte c ≠ byte '.' ∧ byte c ≠ byte 'e' ∧ byte c ≠ byte 'E') :
    Ends (l.space level ++ byte c :: rest) := by
  cases l with
  | compact =>
      intro b hb
      cases hb
      exact h
  | indented =>
      intro b hb
      cases hb
      decide

/-! ## Values

An array is read item by item, where each comma or bracket says whether another one follows; so is
an object. -/

/-- What is written of a value starts with a symbol that ends no array or object. -/
theorem written_head (l : Layout) (level : Nat) (json : Json) :
    ∃ b bs, written l level json = b :: bs ∧ isSpace b = false ∧ b ≠ byte ']' := by
  match json with
  | .null => exact ⟨byte 'n', ascii "ull", by simp [written, ascii], by decide, by decide⟩
  | .bool true => exact ⟨byte 't', ascii "rue", by simp [written, ascii], by decide, by decide⟩
  | .bool false => exact ⟨byte 'f', ascii "alse", by simp [written, ascii], by decide, by decide⟩
  | .natural n =>
    obtain ⟨b, bs, hcons, hb⟩ := numeral_head n
    exact ⟨b, bs, hcons, isSpace_of_isDigit hb, ne_of_isDigit hb rfl⟩
  | .otherNumber => exact ⟨byte '-', ascii "1", by simp [written, ascii], by decide, by decide⟩
  | .text s => exact ⟨byte '"', _, rfl, by decide, by decide⟩
  | .garbled => exact ⟨byte '"', _, rfl, by decide, by decide⟩
  | .array [] => exact ⟨byte '[', ascii "]", by simp [written, ascii], by decide, by decide⟩
  | .array (item :: items) => exact ⟨byte '[', _, rfl, by decide, by decide⟩
  | .object [] => exact ⟨byte '\x7b', _, rfl, by decide, by decide⟩
  | .object (member :: members) => exact ⟨byte '\x7b', _, rfl, by decide, by decide⟩

/-- What is written of a value is read back, within enough calls. -/
def IsReadBack (l : Layout) (json : Json) : Prop :=
  ∀ level n rest, 2 * (written l level json).length ≤ n → Ends rest →
    value? n (written l level json ++ rest) = some (json, rest)

/-! ### Lists of values

The bound on calls has to last for all items that are left, so it is compared with the bytes of all
of them. -/

/-- Items that are written are read back, behind those already found. -/
theorem items?_written {l : Layout} {items : List Json} {item : Json} (hitem : IsReadBack l item)
    (hitems : ∀ item ∈ items, IsReadBack l item) (level n : Nat) (rest : Bytes) (found : Array Json)
    (hn : 2 * ((written l (level + 1) item).length + (writtenItems l level items).length) + 1 ≤ n) :
    items? n (l.space (level + 1) ++ (written l (level + 1) item ++ (writtenItems l level items
      ++ (l.space level ++ byte ']' :: rest)))) found =
        some (.array (found.toList ++ item :: items), rest) := by
  induction items generalizing item n found with
  | nil =>
      obtain ⟨n, rfl⟩ : ∃ m, n = m + 1 := ⟨n - 1, by omega⟩
      have hvalue := hitem (level + 1) n (l.space level ++ byte ']' :: rest) (by omega)
        (ends_space l level rest (by decide))
      have hcomma : pastSymbol? ',' (l.space level ++ byte ']' :: rest) = none :=
        pastSymbol?_ne (by decide) (by decide) l level rest
      have hclose : pastSymbol? ']' (l.space level ++ byte ']' :: rest) = some rest :=
        pastSymbol?_eq (by decide) l level rest
      rw [items?, value?_space, writtenItems, List.nil_append, hvalue]
      simp only [hcomma, hclose, Option.map_some, Array.toList_push]
  | cons next items ih =>
      obtain ⟨n, rfl⟩ : ∃ m, n = m + 1 := ⟨n - 1, by omega⟩
      -- the comma pays for the call that the item takes
      have hlength : (writtenItems l level (next :: items)).length
          = 1 + ((l.space (level + 1)).length + ((written l (level + 1) next).length
            + (writtenItems l level items).length)) := by
        rw [writtenItems, List.length_cons, List.length_append, List.length_append, Nat.add_comm]
      have hvalue := hitem (level + 1) n (writtenItems l level (next :: items)
        ++ (l.space level ++ byte ']' :: rest)) (by omega) (by
          intro b hb
          cases hb
          decide)
      have hcomma : pastSymbol? ',' (writtenItems l level (next :: items)
          ++ (l.space level ++ byte ']' :: rest)) =
            some (l.space (level + 1) ++ (written l (level + 1) next
            ++ (writtenItems l level items ++ (l.space level ++ byte ']' :: rest)))) := by
        rw [writtenItems, List.cons_append, List.append_assoc, List.append_assoc]
        exact pastSymbol?_eq (by decide) .compact 0 _
      have hnext := ih (hitems next List.mem_cons_self)
        (fun item h => hitems item (List.mem_cons_of_mem _ h)) n (found.push item) (by omega)
      rw [items?, value?_space, hvalue]
      simp only [hcomma]
      rw [hnext]
      simp

/-- The key of a member is read, and its value is left. -/
theorem key_written (l : Layout) (level : Nat) (key : Option String) (item : Json) (tail : Bytes) :
    (pastSymbol? '"' (l.space (level + 1) ++ (writtenMember l level (key, item) ++ tail))).bind
      string?
      = some (key, l.divider ++ (written l (level + 1) item ++ tail)) := by
  rw [writtenMember, List.cons_append, pastSymbol?_eq (by decide), Option.bind_some,
    List.append_assoc, List.append_assoc, string?_keyBody]

/-- A member is at least as long as its value. -/
theorem length_written_le (l : Layout) (level : Nat) (key : Option String) (item : Json) :
    (written l (level + 1) item).length ≤ (writtenMember l level (key, item)).length := by
  simp only [writtenMember, List.length_cons, List.length_append]
  omega

/-- Members that are written are read back, as items are. -/
theorem members?_written {l : Layout} {members : List (Option String × Json)}
    {member : Option String × Json} (hmember : IsReadBack l member.2)
    (hmembers : ∀ member ∈ members, IsReadBack l member.2) (level n : Nat) (rest : Bytes)
    (found : Array (Option String × Json))
    (hn : 2 * ((writtenMember l level member).length +
      (writtenMembers l level members).length) + 1 ≤ n) :
    members? n (l.space (level + 1) ++ (writtenMember l level member ++
      (writtenMembers l level members
      ++ (l.space level ++ byte '\x7d' :: rest)))) found
        = some (.object (found.toList ++ member :: members), rest) := by
  induction members generalizing member n found with
  | nil =>
      obtain ⟨n, rfl⟩ : ∃ m, n = m + 1 := ⟨n - 1, by omega⟩
      obtain ⟨key, item⟩ := member
      replace hmember : IsReadBack l item := hmember
      have hlength := length_written_le l level key item
      have hvalue := hmember (level + 1) n (l.space level ++ byte '\x7d' :: rest) (by omega)
        (ends_space l level rest (by decide))
      -- the last member: no comma follows but the closing brace
      have hcomma : pastSymbol? ',' (l.space level ++ byte '\x7d' :: rest) = none :=
        pastSymbol?_ne (by decide) (by decide) l level rest
      have hclose : pastSymbol? '\x7d' (l.space level ++ byte '\x7d' :: rest) = some rest :=
        pastSymbol?_eq (by decide) l level rest
      rw [members?, writtenMembers, List.nil_append, key_written]
      simp only [value?_divider, hvalue, hcomma, hclose, Option.map_some, Array.toList_push]
  | cons next members ih =>
      obtain ⟨n, rfl⟩ : ∃ m, n = m + 1 := ⟨n - 1, by omega⟩
      obtain ⟨key, item⟩ := member
      replace hmember : IsReadBack l item := hmember
      have hlength := length_written_le l level key item
      -- another member: the bound is for this one and for all behind the comma
      have hlength' : (writtenMembers l level (next :: members)).length
          = 1 + ((l.space (level + 1)).length + ((writtenMember l level next).length
            + (writtenMembers l level members).length)) := by
        rw [writtenMembers, List.length_cons, List.length_append, List.length_append, Nat.add_comm]
      have hvalue := hmember (level + 1) n (writtenMembers l level (next :: members)
        ++ (l.space level ++ byte '\x7d' :: rest)) (by omega) (by
          intro b hb
          cases hb
          decide)
      have hcomma : pastSymbol? ',' (writtenMembers l level (next :: members)
          ++ (l.space level ++ byte '\x7d' :: rest)) =
            some (l.space (level + 1) ++ (writtenMember l level next
            ++ (writtenMembers l level members ++ (l.space level ++ byte '\x7d' :: rest)))) := by
        rw [writtenMembers, List.cons_append, List.append_assoc, List.append_assoc]
        exact pastSymbol?_eq (by decide) .compact 0 _
      have hnext := ih (hmembers next List.mem_cons_self)
        (fun member h => hmembers member (List.mem_cons_of_mem _ h)) n
        (found.push (key, item)) (by omega)
      rw [members?, key_written]
      simp only [value?_divider, hvalue, hcomma]
      rw [hnext]
      simp

/-! ## One value after another

Values nest in lists, so the induction goes through the items of arrays and the values of members.
-/

/-- What holds of a value if it holds of all that are right in it, holds of every value. -/
theorem induct_below {P : Json → Prop}
    (scalar : ∀ json, (∀ items, json ≠ .array items) → (∀ members, json ≠ .object members) → P json)
    (array : ∀ items, (∀ item ∈ items, P item) → P (.array items))
    (object : ∀ members, (∀ member ∈ members, P member.2) → P (.object members)) (json : Json) :
    P json := by
  match json with
  | .array items => exact array items fun item h => induct_below scalar array object item
  | .object members =>
      exact object members fun member h => induct_below scalar array object member.2
  | .null => exact scalar _ nofun nofun
  | .bool b => exact scalar _ nofun nofun
  | .natural n => exact scalar _ nofun nofun
  | .otherNumber => exact scalar _ nofun nofun
  | .text s => exact scalar _ nofun nofun
  | .garbled => exact scalar _ nofun nofun
decreasing_by
  · have := List.sizeOf_lt_of_mem h
    simp only [Json.array.sizeOf_spec]
    omega
  · obtain ⟨key, item⟩ := member
    have := List.sizeOf_lt_of_mem h
    simp only [Prod.mk.sizeOf_spec, Json.object.sizeOf_spec] at this ⊢
    omega

/-- A value that starts with a quote is a string. -/
theorem value?_string (n : Nat) (key : Option String) (rest : Bytes) :
    value? (n + 1) (byte '"' :: (keyBody key ++ rest)) =
      some ((key.map Json.text).getD .garbled, rest) := by
  rw [value?, pastSpace_cons (by decide)]
  simp only [↓reduceIte, string?_keyBody, Option.map_some]

/-- A value that starts with a digit or a sign is a number. -/
theorem value?_number {n : Nat} {b : UInt8} (rest : Bytes) (h : isDigit b = true ∨ b = byte '-') :
    value? (n + 1) (b :: rest) = number? (b :: rest) := by
  have hne : ∀ {c : Char}, isDigit (byte c) = false → byte '-' ≠ byte c → b ≠ byte c := by
    intro c hdigit hminus
    rcases h with h | rfl
    · exact ne_of_isDigit h hdigit
    · exact hminus
  have hspace : isSpace b = false := by
    rcases h with h | rfl
    · exact isSpace_of_isDigit h
    · rfl
  rw [value?, pastSpace_cons hspace]
  simp only [if_neg (hne (c := '"') rfl (by decide)), if_neg (hne (c := '[') rfl (by decide)),
    if_neg (hne (c := '\x7b') rfl (by decide)), if_neg (hne (c := 'n') rfl (by decide)),
    if_neg (hne (c := 't') rfl (by decide)), if_neg (hne (c := 'f') rfl (by decide))]

/-- Whatever is neither an array nor an object is read back. -/
theorem isReadBack_scalar (l : Layout) (json : Json) (harray : ∀ items, json ≠ .array items)
    (hobject : ∀ members, json ≠ .object members) : IsReadBack l json := by
  intro level n rest hn hrest
  obtain ⟨b, bs, hcons, -, -⟩ := written_head l level json
  obtain ⟨n, rfl⟩ : ∃ m, n = m + 1 := ⟨n - 1, by rw [hcons, List.length_cons] at hn; omega⟩
  clear hn hcons
  match json with
  | .array items => exact absurd rfl (harray items)
  | .object members => exact absurd rfl (hobject members)
  | .null =>
    have hword : written l level .null = byte 'n' :: ascii "ull" := by simp [written, ascii]
    rw [hword, List.cons_append, value?, pastSpace_cons (by decide)]
    show (pastWord? (ascii "ull") (ascii "ull" ++ rest)).map (fun past => (Json.null, past)) = _
    rw [pastWord?_append]
    rfl
  | .bool true =>
    have hword : written l level (.bool true) = byte 't' :: ascii "rue" := by simp [written, ascii]
    rw [hword, List.cons_append, value?, pastSpace_cons (by decide)]
    show (pastWord? (ascii "rue") (ascii "rue" ++ rest)).map
        (fun past => (Json.bool true, past)) = _
    rw [pastWord?_append]
    rfl
  | .bool false =>
    have hword : written l level (.bool false) = byte 'f' :: ascii "alse" := by
      simp [written, ascii]
    rw [hword, List.cons_append, value?, pastSpace_cons (by decide)]
    show (pastWord? (ascii "alse") (ascii "alse" ++ rest)).map
        (fun past => (Json.bool false, past)) = _
    rw [pastWord?_append]
    rfl
  | .natural m =>
    obtain ⟨b, bs, hcons, hb⟩ := numeral_head m
    have hnumber := number?_numeral m hrest
    show value? (n + 1) (numeral m ++ rest) = _
    rw [hcons, List.cons_append] at hnumber ⊢
    rw [value?_number _ (Or.inl hb), hnumber]
  | .otherNumber =>
    -- any number that is no natural one is written as this
    have hone : numeral 1 = [byte '1'] := numeral_lt (by decide)
    have hword : written l level .otherNumber = byte '-' :: numeral 1 := by
      simp [hone, written, ascii]
    rw [hword, List.cons_append, value?_number _ (Or.inr rfl)]
    show (unsigned? (numeral 1 ++ rest)).map _ = _
    rw [unsigned?_numeral 1 hrest]
    rfl
  | .text s => exact value?_string n (some s) rest
  | .garbled => exact value?_string n none rest

/-- **JSON is read back.** What is written of a value is read as that value, whatever follows it. -/
theorem isReadBack (l : Layout) (json : Json) : IsReadBack l json := by
  induction json using induct_below with
  | scalar json harray hobject => exact isReadBack_scalar l json harray hobject
  | array items ih =>
      intro level n rest hn _
      cases items with
      | nil =>
          have hword : written l level (.array []) = [byte '[', byte ']'] := by
            simp [written, ascii]
          rw [hword] at hn ⊢
          obtain ⟨n, rfl⟩ : ∃ m, n = m + 1 := ⟨n - 1, by simp at hn; omega⟩
          rfl
      | cons item items =>
          rw [written] at hn ⊢
          simp only [List.length_cons, List.length_append, List.length_nil] at hn
          obtain ⟨n, rfl⟩ : ∃ m, n = m + 1 := ⟨n - 1, by omega⟩
          have hitems := items?_written (ih item List.mem_cons_self)
            (fun item h => ih item (List.mem_cons_of_mem _ h)) level n rest #[] (by omega)
          -- an item does not start like the end of an array, so this one is not taken for the empty
          -- one
          obtain ⟨b, bs, hcons, hspace, hne⟩ := written_head l (level + 1) item
          have hclose : ∀ tail, pastSymbol? ']'
              (l.space (level + 1) ++ (written l (level + 1) item ++ tail))
              = none := by
            intro tail
            rw [hcons, List.cons_append]
            exact pastSymbol?_ne hspace hne l (level + 1) _
          simp only [List.cons_append, List.append_assoc, List.nil_append]
          rw [value?, pastSpace_cons (by decide)]
          simp only [if_neg (by decide : byte '[' ≠ byte '"'), ↓reduceIte, hclose, hitems]
          rfl
  | object members ih =>
      intro level n rest hn _
      cases members with
      | nil =>
          rw [written] at hn ⊢
          obtain ⟨n, rfl⟩ : ∃ m, n = m + 1 := ⟨n - 1, by simp at hn; omega⟩
          rfl
      | cons member members =>
          rw [written] at hn ⊢
          simp only [List.length_cons, List.length_append, List.length_nil] at hn
          obtain ⟨n, rfl⟩ : ∃ m, n = m + 1 := ⟨n - 1, by omega⟩
          have hmembers := members?_written (ih member List.mem_cons_self)
            (fun member h => ih member (List.mem_cons_of_mem _ h)) level n rest #[] (by omega)
          have hclose : ∀ tail, pastSymbol? '\x7d'
              (l.space (level + 1) ++ (writtenMember l level member ++ tail))
              = none := by
            intro tail
            obtain ⟨key, item⟩ := member
            rw [writtenMember, List.cons_append]
            exact pastSymbol?_ne (by decide) (by decide) l (level + 1) _
          simp only [List.cons_append, List.append_assoc, List.nil_append]
          rw [value?, pastSpace_cons (by decide)]
          simp only [if_neg (by decide : byte '\x7b' ≠ byte '"'),
            if_neg (by decide : byte '\x7b' ≠ byte '['), ↓reduceIte, hclose, hmembers]
          rfl

/-- **What is written is read.** -/
theorem parse?_render (l : Layout) (json : Json) : parse? (json.render l) = some json := by
  have hread := isReadBack l json 0 (2 * (written l 0 json).length + 2) [] (by omega) nofun
  rw [List.append_nil] at hread
  rw [render_eq, parse?, hread]
  rfl

end SharpTokens.Json
