import Mathlib.Data.Nat.Bitwise
import Mathlib.Data.Set.Function
import SharpTokens.Token.Legend

/-!
# Names and masks of a legend

Two lists of names make a legend unless there is a fault in them, and then the first one is told
(`Legend.ofNames_eq_error_iff`). In a legend, every bit of a mask that is in it stands for one name
and every name for one bit, so masks are as good as selections of names
(`Legend.bijOn_modifierNames`). All of it can be computed in words of 32 bits: no shift is by too
many places and no difference is below zero (`Legend.wordMask?_eq`).

Faults are looked for from left to right, in the types before the modifiers. `Legend.FirstFault`
says which is the first without a loop, and there is at most one. For masks, everything is reduced
to bits of numbers; the names of a mask are those whose places are bits of it.
-/

namespace SharpTokens

open Text

/-- A name is not blank if some character of it is not. -/
theorem isBlankName_eq_false_iff {name : String} :
    isBlankName name = false ↔ ∃ c ∈ name.toList, isBlank c = false := by
  simp [isBlankName]

/-! ## The first fault in a list of names

A name is at fault if it is blank, or if it stands in the list before. The loop keeps the names it
has seen. -/

/-- What is wrong with the name at an index: it is blank, or it is not and it stands before. -/
inductive FaultAt (list : NameList) (names : List String) : Nat → LegendError → Prop
  | blank {i : Nat} {name : String} : names[i]? = some name → isBlankName name = true →
      FaultAt list names i (.blankName list i)
  | duplicate {i j : Nat} {name : String} :
      names[i]? = some name → isBlankName name = false → j < i →
      names[j]? = some name → FaultAt list names i (.duplicate list name)

/-- What is wrong with a list of names: there are none, or there is something wrong with one and
nothing with those before it. -/
inductive FirstFault (list : NameList) (names : List String) : LegendError → Prop
  | empty : names = [] → FirstFault list names (.empty list)
  | entry {i : Nat} {e : LegendError} :
      FaultAt list names i e → (∀ j < i, ∀ e', ¬ FaultAt list names j e') →
      FirstFault list names e

section Faults

variable {list : NameList} {names before rest : List String} {name : String} {i : Nat}
  {e e' : LegendError}

/-- A name has at most one fault. -/
theorem FaultAt.unique (h : FaultAt list names i e) (h' : FaultAt list names i e') : e = e' := by
  cases h with
  | blank hname hblank =>
      cases h' with
      | blank => rfl
      | duplicate hname' hshown =>
          cases hname.symm.trans hname'
          cases hblank.symm.trans hshown
  | duplicate hname hshown =>
      cases h' with
      | blank hname' hblank =>
          cases hname.symm.trans hname'
          cases hblank.symm.trans hshown
      | duplicate hname' =>
          cases hname.symm.trans hname'
          rfl

theorem FaultAt.ne_nil (h : FaultAt list names i e) : names ≠ [] := by
  rintro rfl
  cases h with
  | blank hname => cases hname
  | duplicate hname => cases hname

/-- A list of names has one first fault. -/
theorem FirstFault.unique (h : FirstFault list names e) (h' : FirstFault list names e') :
    e = e' := by
  cases h with
  | empty hnil =>
      cases h' with
      | empty => rfl
      | entry hfault => exact absurd hnil hfault.ne_nil
  | @entry i _ hfault hfirst =>
      cases h' with
      | empty hnil => exact absurd hnil hfault.ne_nil
      | @entry j _ hfault' hfirst' =>
          rcases Nat.lt_trichotomy i j with hless | rfl | hless
          · exact absurd hfault (hfirst' i hless e)
          · exact hfault.unique hfault'
          · exact absurd hfault' (hfirst j hless e')

/-- What is wrong with a name is seen from it and those before it. -/
theorem faultAt_append_iff : FaultAt list (before ++ name :: rest) before.length e ↔
    isBlankName name = true ∧ e = .blankName list before.length ∨
      isBlankName name = false ∧ name ∈ before ∧ e = .duplicate list name := by
  have hat : (before ++ name :: rest)[before.length]? = some name := by simp
  constructor
  · intro h
    cases h with
    | blank hname hblank =>
        cases hat.symm.trans hname
        exact .inl ⟨hblank, rfl⟩
    | duplicate hname hshown hless hbefore =>
        cases hat.symm.trans hname
        rw [List.getElem?_append_left hless] at hbefore
        exact .inr ⟨hshown, List.mem_of_getElem? hbefore, rfl⟩
  · rintro (⟨hblank, rfl⟩ | ⟨hshown, hmem, rfl⟩)
    · exact .blank hat hblank
    · obtain ⟨j, hless, hj⟩ := List.getElem_of_mem hmem
      refine .duplicate hat hshown hless ?_
      rw [List.getElem?_append_left hless, List.getElem?_eq_getElem hless, hj]

/-- The names are gone through in their order, so the fault that is found is the first. -/
theorem firstFault_of_faultAfter (h : faultAfter list before.reverse before.length rest = some e)
    (hfirst : ∀ j < before.length, ∀ e', ¬ FaultAt list (before ++ rest) j e') :
    FirstFault list (before ++ rest) e := by
  induction rest generalizing before with
  | nil => cases h
  | cons name rest ih =>
      rw [faultAfter] at h
      split at h
      · next hblank =>
        cases h
        exact .entry (faultAt_append_iff.2 (.inl ⟨hblank, rfl⟩)) hfirst
      · next hshown =>
        replace hshown : isBlankName name = false := Bool.eq_false_iff.2 hshown
        split at h
        · next hseen =>
          cases h
          have hmem : name ∈ before := List.mem_reverse.1 (List.contains_iff_mem.1 hseen)
          exact .entry (faultAt_append_iff.2 (.inr ⟨hshown, hmem, rfl⟩)) hfirst
        · next hnew =>
          -- there is nothing wrong with the name, so it joins those before
          have hnot : name ∉ before := fun hmem =>
            hnew (List.contains_iff_mem.2 (List.mem_reverse.2 hmem))
          rw [List.append_cons]
          apply ih
          · rwa [List.reverse_append, List.length_append]
          · intro j hj e' hfault
            rw [← List.append_cons] at hfault
            rw [List.length_append, List.length_singleton, Nat.lt_succ_iff] at hj
            rcases Nat.lt_or_eq_of_le hj with hless | rfl
            · exact hfirst j hless e' hfault
            · rcases faultAt_append_iff.1 hfault with ⟨hblank, -⟩ | ⟨-, hmem, -⟩
              · cases hshown.symm.trans hblank
              · exact hnot hmem

/-- In a list of valid names nothing is wrong. -/
theorem ValidNames.not_faultAt (h : ValidNames names) : ¬ FaultAt list names i e := by
  intro hfault
  cases hfault with
  | blank hname hblank =>
      cases (h.shown _ (List.mem_of_getElem? hname)).symm.trans hblank
  | duplicate hname _ hless hbefore =>
      have hbound := (List.getElem?_eq_some_iff.1 hname).1
      exact Nat.ne_of_gt hless ((List.getElem?_inj hbound h.distinct).1 (hname.trans hbefore.symm))

/-- **The fault that is told is the first one.** -/
theorem firstFault_eq_some_iff : firstFault list names = some e ↔ FirstFault list names e := by
  have hsound {e : LegendError} (h : firstFault list names = some e) : FirstFault list names e := by
    rw [firstFault] at h
    split at h
    · next hempty =>
      cases h
      exact .empty (List.isEmpty_iff.1 hempty)
    · exact @firstFault_of_faultAfter list [] names e h fun j hj => absurd hj (Nat.not_lt_zero j)
  refine ⟨hsound, fun h => ?_⟩
  cases hfound : firstFault list names with
  | some e' => rw [h.unique (hsound hfound)]
  | none =>
      have hvalid := (firstFault_eq_none_iff list names).1 hfound
      cases h with
      | empty hnil => exact absurd hnil hvalid.nonempty
      | entry hfault => exact absurd hfault hvalid.not_faultAt

/-- Names are valid exactly if no fault is first. -/
theorem forall_not_firstFault_iff : (∀ e, ¬ FirstFault list names e) ↔ ValidNames names := by
  rw [← firstFault_eq_none_iff list, Option.eq_none_iff_forall_ne_some]
  simp only [Ne, firstFault_eq_some_iff]

end Faults

/-! ## Bits and names

Names and bits go together one by one, from the first name and the lowest bit on. -/

/-- The names whose places, counted from `k`, are among some bits. -/
def selected (bits : Nat → Bool) (k : Nat) (names : List String) : List String :=
  ((names.zipIdx k).filter fun m => bits m.2).map (·.1)

section Selected

variable {bits bits' : Nat → Bool} {k : Nat} {names chosen : List String} {name : String}

/-- The first name is taken if its bit is there. -/
theorem selected_cons : selected bits k (name :: names) =
    if bits k then name :: selected bits (k + 1) names else selected bits (k + 1) names := by
  simp only [selected, List.zipIdx_cons, List.filter_cons]
  split
  · rfl
  · rfl

/-- Selected names keep their order. -/
theorem selected_sublist : (selected bits k names).Sublist names := by
  have h := (List.filter_sublist (p := fun m => bits m.2) (l := names.zipIdx k)).map (·.1)
  rwa [List.zipIdx_map_fst] at h

/-- Only the bits of places in the list matter. -/
theorem selected_congr (h : ∀ i, k ≤ i → i < k + names.length → bits i = bits' i) :
    selected bits k names = selected bits' k names := by
  refine congrArg (List.map _) (List.filter_congr fun m hm => ?_)
  obtain ⟨hle, hless, -⟩ := List.mem_zipIdx hm
  exact h m.2 hle hless

/-- Among distinct names, one is selected by its own bit and by no other. -/
theorem mem_selected_iff {i : Nat} (hnames : names.Nodup) (hi : names[i]? = some name) :
    name ∈ selected bits 0 names ↔ bits i = true := by
  simp only [selected, List.mem_map, List.mem_filter, Prod.exists, List.mk_mem_zipIdx_iff_getElem?]
  constructor
  · rintro ⟨_, j, ⟨hj, hbit⟩, rfl⟩
    have hbound := (List.getElem?_eq_some_iff.1 hi).1
    rwa [(List.getElem?_inj hbound hnames).1 (hi.trans hj.symm)]
  · intro hbit
    exact ⟨name, i, ⟨hi, hbit⟩, rfl⟩

/-- Any names that are left of a list are selected by some bits. -/
theorem exists_selected (h : chosen.Sublist names) (k : Nat) :
    ∃ bits, selected bits k names = chosen := by
  induction h generalizing k with
  | slnil => exact ⟨fun _ => false, rfl⟩
  | cons name _ ih =>
      -- the name is left out, whatever its bit is among those of the names behind it
      obtain ⟨bits, hbits⟩ := ih (k + 1)
      refine ⟨fun i => decide (i ≠ k) && bits i, ?_⟩
      rw [selected_cons, ← hbits, if_neg (by simp)]
      exact selected_congr fun i hle _ => by simp [Nat.ne_of_gt hle]
  | cons_cons name _ ih =>
      obtain ⟨bits, hbits⟩ := ih (k + 1)
      refine ⟨fun i => decide (i = k) || bits i, ?_⟩
      rw [selected_cons, ← hbits, if_pos (by simp)]
      exact congrArg _ (selected_congr fun i hle _ => by simp [Nat.ne_of_gt hle])

end Selected

namespace Legend

variable {l : Legend} {types modifiers : List String}

/-! ### Masks as numbers

Up to 32 names fit into a mask, so a mask is the number whose bits are those of the names that are
in it. -/

/-- The mask of all modifiers, as a number. -/
theorem toNat_modifierMask (l : Legend) : l.modifierMask.toNat = 2 ^ l.modifiers.length - 1 := by
  have hle : 2 ^ l.modifiers.length ≤ 2 ^ 32 := Nat.pow_le_pow_right (by decide) l.maskable
  have hpos : 0 < 2 ^ l.modifiers.length := Nat.two_pow_pos _
  rw [modifierMask, Nat.one_shiftLeft]
  exact UInt32.toNat_ofNat_of_lt' (show _ < 2 ^ 32 by omega)

/-- The check of a mask asks whether its bits are all in the legend. -/
theorem containsModifiers_iff (l : Legend) (mask : UInt32) :
    l.containsModifiers mask = true ↔ ∀ i, mask.toNat.testBit i = true →
      i < l.modifiers.length := by
  have hmask (i : Nat) : l.modifierMask.toBitVec.getLsbD i = decide (i < l.modifiers.length) := by
    rw [← Nat.testBit_two_pow_sub_one, ← toNat_modifierMask]
    rfl
  rw [containsModifiers, beq_iff_eq, ← UInt32.toBitVec_inj]
  constructor
  · intro h i hi
    have hbit : (mask &&& ~~~l.modifierMask).toBitVec.getLsbD i = false := by
      rw [h]
      exact BitVec.getLsbD_zero
    have hi : mask.toBitVec.getLsbD i = true := hi
    have hless : i < 32 := BitVec.lt_of_getLsbD hi
    simpa only [UInt32.toBitVec_and, UInt32.toBitVec_not, BitVec.getLsbD_and, BitVec.getLsbD_not,
      hi, hmask, hless, Bool.true_and, decide_true, Bool.not_eq_false',
      decide_eq_true_eq] using hbit
  · intro h
    apply BitVec.eq_of_getLsbD_eq
    intro i hless
    cases hi : mask.toBitVec.getLsbD i with
    | false => simp [hi]
    | true => simp [hi, hmask, h i hi]

theorem modifierNames_eq (l : Legend) (mask : UInt32) :
    l.modifierNames mask = selected mask.toNat.testBit 0 l.modifiers := rfl

/-- Bits of places in the list of modifiers make a mask. -/
theorem exists_mask (l : Legend) (bits : Nat → Bool) : ∃ mask :
    UInt32, l.containsModifiers mask = true ∧
    ∀ i < l.modifiers.length, mask.toNat.testBit i = bits i := by
  let word : BitVec 32 :=
    (BitVec.ofBoolListLE ((List.range l.modifiers.length).map bits)).setWidth 32
  have hword (i : Nat) : word.getLsbD i = (decide (i < l.modifiers.length) && bits i) := by
    have hmax : l.modifiers.length ≤ 32 := l.maskable
    rw [BitVec.getLsbD_setWidth, BitVec.getLsbD_ofBoolListLE, List.getD_eq_getElem?_getD]
    by_cases hless : i < l.modifiers.length
    · simp [hless, Nat.lt_of_lt_of_le hless hmax]
    · simp [hless]
  refine ⟨UInt32.ofBitVec word, (l.containsModifiers_iff _).2 fun i hi => ?_, fun i hless => ?_⟩
  · have hbit := (hword i).symm.trans hi
    rw [Bool.and_eq_true, decide_eq_true_eq] at hbit
    exact hbit.1
  · refine (hword i).trans ?_
    rw [decide_eq_true hless, Bool.true_and]

/-- **Masks are selections of names**: each one that is in the legend names some modifiers in their
order, no two name the same, and any can be named. -/
theorem bijOn_modifierNames (l : Legend) :
    Set.BijOn l.modifierNames {mask | l.containsModifiers mask = true}
      {names | names.Sublist l.modifiers} := by
  refine ⟨fun mask _ => selected_sublist, fun mask hmask mask' hmask' heq => ?_,
    fun names hnames => ?_⟩
  · apply UInt32.toNat_inj.1
    apply Nat.eq_of_testBit_eq
    intro i
    -- a bit of a modifier is told by its name, and the others are in neither mask
    by_cases hless : i < l.modifiers.length
    · have hi := List.getElem?_eq_getElem hless
      rw [Bool.eq_iff_iff, ← mem_selected_iff l.validModifiers.distinct hi,
        ← mem_selected_iff l.validModifiers.distinct hi, ← modifierNames_eq,
        ← modifierNames_eq, heq]
    · have hout {mask : UInt32} (h : l.containsModifiers mask = true) :
          mask.toNat.testBit i = false := by
        rw [← Bool.not_eq_true]
        exact fun hbit => hless ((l.containsModifiers_iff mask).1 h i hbit)
      rw [hout hmask, hout hmask']
  · obtain ⟨bits, hbits⟩ := exists_selected hnames 0
    obtain ⟨mask, hmask, heq⟩ := l.exists_mask bits
    refine ⟨mask, hmask, ?_⟩
    rw [modifierNames_eq, ← hbits]
    exact selected_congr fun i _ hless => heq i (by rwa [Nat.zero_add] at hless)

/-! ## Words of 32 bits

The same functions with machine arithmetic, in which a shift by too many places or a difference
below zero has no value. They always have one, and it is the right one. -/

/-- A shift to the left, of which the places are fewer than the bits of a word. -/
def shiftLeft? (word : UInt32) (places : Nat) : Option UInt32 :=
  if places < 32 then some (word <<< places.toUInt32) else none

/-- A difference that is not below zero. -/
def sub? (word less : UInt32) : Option UInt32 := if less ≤ word then some (word - less) else none

/-- The mask with the first `n` bits. All bits are a case of their own, since no shift is by so many
places. -/
def wordMask? (n : Nat) : Option UInt32 :=
  if n = maxModifiers then some 0xFFFFFFFF
  else do
    let above ← shiftLeft? 1 n
    sub? above 1

/-- The last of `n` places, if there is one. -/
def lastIndex? : Nat → Option UInt32
  | 0 => none
  | n + 1 => some n.toUInt32

/-- The names whose bits are in a mask, each bit found by a shift. -/
def wordNames? (mask : UInt32) : Nat → List String → Option (List String)
  | _, [] => some []
  | k, name :: names => do
    let bit ← shiftLeft? 1 k
    let rest ← wordNames? mask (k + 1) names
    return if mask &&& bit ≠ 0 then name :: rest else rest

/-- A bit in its place is a power of two. -/
theorem toNat_shiftLeft_one {k : Nat} (h : k < 32) :
    ((1 : UInt32) <<< k.toUInt32).toNat = 2 ^ k := by
  have hk : k.toUInt32.toNat = k := UInt32.toNat_ofNat_of_lt' (show k < 2 ^ 32 by omega)
  have hless : 2 ^ k < 2 ^ 32 := Nat.pow_lt_pow_right (by decide) h
  rw [UInt32.toNat_shiftLeft, hk, Nat.mod_eq_of_lt h, UInt32.toNat_one, Nat.one_shiftLeft,
    Nat.mod_eq_of_lt hless]

/-- The mask of a legend can be computed in a word, also with all 32 bits. -/
theorem wordMask?_eq (l : Legend) : wordMask? l.modifiers.length = some l.modifierMask := by
  have hmask := l.toNat_modifierMask
  rw [wordMask?]
  split
  · next hall =>
    refine congrArg some (UInt32.toNat_inj.1 ?_)
    rw [hmask, hall]
    rfl
  · next hsome =>
    have hless : l.modifiers.length < 32 := Nat.lt_of_le_of_ne l.maskable hsome
    have hone : (1 : UInt32) ≤ 1 <<< l.modifiers.length.toUInt32 := by
      rw [UInt32.le_iff_toNat_le, toNat_shiftLeft_one hless]
      exact Nat.two_pow_pos _
    simp only [shiftLeft?, if_pos hless, Option.bind_eq_bind, Option.bind_some, sub?, if_pos hone]
    refine congrArg some (UInt32.toNat_inj.1 ?_)
    rw [UInt32.toNat_sub_of_le _ _ hone, toNat_shiftLeft_one hless, hmask, UInt32.toNat_one]

/-- A legend has a type, so it has a last one. -/
theorem lastIndex?_eq (l : Legend) : lastIndex? l.types.length = some l.fallbackType := by
  rw [fallbackType]
  cases hlength : l.types.length with
  | zero => exact absurd (List.length_eq_zero_iff.1 hlength) l.validTypes.nonempty
  | succ n => rfl

/-- A bit is tested by a shift and a conjunction. -/
theorem and_shiftLeft_ne_zero_iff {k : Nat} (h : k < 32) (mask : UInt32) :
    mask &&& 1 <<< k.toUInt32 ≠ 0 ↔ mask.toNat.testBit k = true := by
  rw [Ne, ← UInt32.toNat_inj, UInt32.toNat_and, toNat_shiftLeft_one h, Nat.and_two_pow,
    UInt32.toNat_zero]
  cases mask.toNat.testBit k with
  | false => simp
  | true => simp

/-- Going through the names with shifts selects those whose bits are in the mask, if every place is
that of a bit. -/
theorem wordNames?_eq_selected (mask : UInt32) {k : Nat} {names : List String}
    (h : k + names.length ≤ 32) :
    wordNames? mask k names = some (selected mask.toNat.testBit k names) := by
  induction names generalizing k with
  | nil => rfl
  | cons name names ih =>
      rw [List.length_cons] at h
      have hless : k < 32 := by omega
      rw [wordNames?, shiftLeft?, if_pos hless, ih (by omega), selected_cons]
      simp only [Option.bind_eq_bind, Option.bind_some, and_shiftLeft_ne_zero_iff hless,
        Option.pure_def]

/-! ## Legends of names

What a legend is made of is checked once, when it is made, and is part of the type from then on. -/

/-- A legend is made of its own names, and of no others. -/
theorem ofNames_eq_ok_iff : ofNames types modifiers = .ok l ↔ l.types = types ∧
    l.modifiers = modifiers := by
  constructor
  · intro h
    rw [ofNames] at h
    split at h
    · cases h
    · split at h
      · cases h
      · split at h
        · cases h
          exact ⟨rfl, rfl⟩
        · cases h
  · rintro ⟨rfl, rfl⟩
    rw [ofNames]
    split
    · next e hfault => cases ((firstFault_eq_none_iff _ _).2 l.validTypes).symm.trans hfault
    · split
      · next e hfault => cases ((firstFault_eq_none_iff _ _).2 l.validModifiers).symm.trans hfault
      · rw [dif_pos l.maskable]

/-- Names make a legend exactly if they are valid, and the modifiers not too many. -/
theorem exists_ofNames_iff : (∃ l, ofNames types modifiers = .ok l) ↔
    ValidNames types ∧ ValidNames modifiers ∧ modifiers.length ≤ maxModifiers := by
  constructor
  · rintro ⟨l, h⟩
    obtain ⟨rfl, rfl⟩ := ofNames_eq_ok_iff.1 h
    exact ⟨l.validTypes, l.validModifiers, l.maskable⟩
  · rintro ⟨htypes, hmodifiers, hcount⟩
    exact ⟨⟨types, modifiers, htypes, hmodifiers, hcount⟩, ofNames_eq_ok_iff.2 ⟨rfl, rfl⟩⟩

/-- Types are looked at before modifiers, and names before their number. -/
theorem ofNames_eq_error_iff {e : LegendError} : ofNames types modifiers = .error e ↔
    FirstFault .types types e ∨
      ValidNames types ∧ FirstFault .modifiers modifiers e ∨
      ValidNames types ∧ ValidNames modifiers ∧ maxModifiers < modifiers.length ∧
        e = .tooManyModifiers modifiers.length := by
  simp only [← firstFault_eq_some_iff, ← firstFault_eq_none_iff .types types,
    ← firstFault_eq_none_iff .modifiers modifiers]
  rw [ofNames]
  split
  · next e' hfault => simp [hfault]
  · next htypes =>
    split
    · next e' hfault => simp [htypes, hfault]
    · next hmodifiers =>
      split
      · next hcount => simp [htypes, hmodifiers, Nat.not_lt.2 hcount]
      · next hcount => simp [htypes, hmodifiers, Nat.lt_of_not_le hcount, eq_comm]

/-- The index of a name is its place. -/
theorem typeIndex?_eq_some_iff (hcount : l.types.length < 2 ^ 32) {i : Nat} {name : String} :
    (∃ index, l.typeIndex? name = some index ∧ index.toNat = i) ↔ l.types[i]? = some name := by
  have hword {j : Nat} (hless : j < l.types.length) : j.toUInt32.toNat = j :=
    UInt32.toNat_ofNat_of_lt' (show j < 2 ^ 32 by omega)
  simp only [typeIndex?, Option.map_eq_some_iff]
  constructor
  · rintro ⟨_, ⟨j, hj, rfl⟩, rfl⟩
    obtain ⟨hless, hname, -⟩ := List.idxOf?_eq_some_iff.1 hj
    rw [hword hless, List.getElem?_eq_getElem hless, hname]
  · intro hi
    obtain ⟨hless, hname⟩ := List.getElem?_eq_some_iff.1 hi
    refine ⟨_, ⟨i, List.idxOf?_eq_some_iff.2 ⟨hless, hname, fun j hj hsame => ?_⟩, rfl⟩,
      hword hless⟩
    have hj' := (List.getElem?_eq_getElem (Nat.lt_trans hj hless)).trans (congrArg some hsame)
    exact Nat.ne_of_gt hj ((List.getElem?_inj hless l.validTypes.distinct).1 (hi.trans hj'.symm))

/-- **Names and masks go together.** Two lists make a legend if they have names, none blank and none
twice, and there are at most 32 modifiers. Otherwise the first fault is told: one of the types, or
else one of the modifiers, or else that these are too many. What a legend says of a mask is found in
words of 32 bits without a shift or a difference that is out of range. A mask is in the legend if
its bits are places of modifiers, such masks are the selections of modifiers, and the index of a
type is its place. -/
theorem names_go_with_masks (types modifiers : List String) :
    ((∃ l, ofNames types modifiers = .ok l) ↔
      types ≠ [] ∧ modifiers ≠ [] ∧
        (∀ name ∈ types ++ modifiers, ∃ c ∈ name.toList, isBlank c = false) ∧
        types.Nodup ∧ modifiers.Nodup ∧ modifiers.length ≤ 32) ∧
    (∀ e, ofNames types modifiers = .error e ↔
      FirstFault .types types e ∨
      (∀ e', ¬ FirstFault .types types e') ∧ FirstFault .modifiers modifiers e ∨
      (∀ e', ¬ FirstFault .types types e') ∧ (∀ e', ¬ FirstFault .modifiers modifiers e') ∧
        32 < modifiers.length ∧ e = .tooManyModifiers modifiers.length) ∧
    ∀ l, ofNames types modifiers = .ok l → l.types = types ∧ l.modifiers = modifiers ∧
      (types.length < 2 ^ 32 →
        wordMask? modifiers.length = some l.modifierMask ∧
        lastIndex? types.length = some l.fallbackType ∧ l.fallbackType.toNat + 1 = types.length ∧
        (∀ mask, wordNames? mask 0 modifiers = some (l.modifierNames mask)) ∧
        (∀ mask : UInt32, l.containsModifiers mask = true ↔
          ∀ i, mask.toNat.testBit i = true → i < modifiers.length) ∧
        Set.BijOn l.modifierNames {mask | l.containsModifiers mask = true}
        {names | names.Sublist modifiers} ∧
        ∀ i name, (∃ index, l.typeIndex? name = some index ∧ index.toNat = i) ↔
        types[i]? = some name) := by
  refine ⟨?_, fun e => ?_, fun l hl => ?_⟩
  · rw [exists_ofNames_iff]
    constructor
    · rintro ⟨htypes, hmodifiers, hcount⟩
      refine ⟨htypes.nonempty, hmodifiers.nonempty, ?_, htypes.distinct,
        hmodifiers.distinct, hcount⟩
      intro name hname
      rw [← isBlankName_eq_false_iff]
      exact (List.mem_append.1 hname).elim (htypes.shown name) (hmodifiers.shown name)
    · rintro ⟨htypes, hmodifiers, hshown, hdistinct, hdistinct', hcount⟩
      simp only [← isBlankName_eq_false_iff, List.mem_append] at hshown
      exact ⟨⟨htypes, fun name hname => hshown name (.inl hname), hdistinct⟩,
        ⟨hmodifiers, fun name hname => hshown name (.inr hname), hdistinct'⟩, hcount⟩
  · simp only [forall_not_firstFault_iff]
    exact ofNames_eq_error_iff
  · -- from here on the two lists are those of the legend
    obtain ⟨rfl, rfl⟩ := ofNames_eq_ok_iff.1 hl
    refine ⟨rfl, rfl, fun hcount => ⟨l.wordMask?_eq, l.lastIndex?_eq, ?_, fun mask => ?_,
      l.containsModifiers_iff,
      l.bijOn_modifierNames, fun _ _ => typeIndex?_eq_some_iff hcount⟩⟩
    · have hpos : 0 < l.types.length := List.length_pos_iff.2 l.validTypes.nonempty
      have hword : l.fallbackType.toNat = l.types.length - 1 :=
        UInt32.toNat_ofNat_of_lt' (show l.types.length - 1 < 2 ^ 32 by omega)
      omega
    · rw [modifierNames_eq]
      exact wordNames?_eq_selected mask ((Nat.zero_add _).symm ▸ l.maskable)

/-- With 32 modifiers every mask is in the legend and no shift reaches the end of a word. A blank
name is told before one that stands twice behind it, and both before what is wrong with
modifiers. -/
theorem names_go_with_masks_all_bits :
    (∃ l, ofNames ["class", "type"] ((List.range 32).map toString) = .ok l ∧
      wordMask? 32 = some l.modifierMask ∧ (∀ mask, l.containsModifiers mask = true) ∧
      ∃ index, l.typeIndex? "type" = some index ∧ index.toNat = 1) ∧
    ofNames ["class", "\u2003", "class"] [] = .error (.blankName .types 1) := by
  obtain ⟨hok, -, hlegend⟩ := names_go_with_masks ["class", "type"] ((List.range 32).map toString)
  obtain ⟨-, herror, -⟩ := names_go_with_masks ["class", "\u2003", "class"] []
  constructor
  · -- what is decided is about names, not about all characters there are
    simp only [← isBlankName_eq_false_iff] at hok
    obtain ⟨l, hl⟩ := hok.2 (by decide +kernel)
    obtain ⟨-, -, hqueries⟩ := hlegend l hl
    obtain ⟨hmask, -, -, -, hcontains, -, hindex⟩ := hqueries (by decide)
    refine ⟨l, hl, hmask, fun mask => (hcontains mask).2 fun i hi => ?_, (hindex 1 "type").2 rfl⟩
    exact BitVec.lt_of_getLsbD (x := mask.toBitVec) hi
  · refine (herror _).2 (.inl (.entry (.blank rfl (by decide)) fun j hj e hfault => ?_))
    cases Nat.lt_one_iff.1 hj
    cases hfault with
    | blank hname hblank =>
        cases hname
        exact absurd hblank (by decide)
    | duplicate _ _ hless => exact absurd hless (Nat.not_lt_zero _)

end Legend

end SharpTokens
