import SharpTokens.Proofs.Grammar.Run.Progress

/-!
# What is opened is closed

A guard that is left where nothing is open would count below zero. It never is: a construct is left
with the guard that it was entered with, one level above where it was opened. `Construct` lists what
is read inside a level of its own, and `Construct.closes` proves this of every one of them.

The list is the same as the places in the grammar where a construct is entered. Each case is closed
by what was shown of the parser inside, which leaves as many constructs open as it found.
-/

namespace SharpTokens.Grammar

open Grammar.Parser Loosened

/-- What is read a level deeper than what is around it, each with what has to be ahead of it at the
word `lo`, where `d` constructs are open around it. -/
inductive Construct (ws : Words) (d lo : Nat) : {α : Type} → (Nonterminals → Parser α) → Prop
  | block : lo < ws.size → Construct ws d lo (·.blockInside)
  | group (scope : Scope) (close : Kind) :
      lo < ws.size → Construct ws d lo (·.groupInside scope close)
  | lambda : ws.isAny lo [.lparen, .ident, .staticKw] = true → Construct ws d lo (·.lambdaInside)
  | embedded : d < lo → Construct ws d lo (·.statement)
  | sections : lo < ws.size → Construct ws d lo (fun g => braced g.switchItem)
  | accessors : lo < ws.size → Construct ws d lo (fun g => braced g.accessorItem)
  | members : lo < ws.size → Construct ws d lo (fun g => braced g.typeItem)
  | values : lo < ws.size → Construct ws d lo (fun g => braced g.enumItem)
  | namespaceMembers : lo < ws.size → Construct ws d lo (fun g => braced fun _ => g.namespaceMember)

variable {α : Type} {p : Nonterminals → Parser α}

/-- What a construct reads comes to an end, a level deeper than what is around it. -/
theorem Construct.tracks {c : Loosened} {g g' : Nonterminals} {d lo : Nat}
    (hp : Construct c.words d lo p) (h : c.Ready d lo) (hdeep : d < c.limit)
    (hg : ∀ z {d mid : Nat}, c.Ready d mid → z.Ahead c.words mid →
      Tracks c (g.parser z) (g'.parser z) d mid (c.Fits d mid z)) :
    Tracks c (p g) (p g') (d + 1) lo fun _ hi => lo ≤ hi := by
  have hlater : Alike c g g' lo d fun _ _ => True := ⟨fun z hr _ hz _ => hg z hr hz⟩
  have hvalues : Alike c g g' lo (d + 1) Loosened.values := hlater.deeper.mono fun _ _ _ => trivial
  have hle := Nat.le_refl lo
  have hinside : ∀ mid, lo < mid → mid < c.words.size → c.Ready (d + 1) mid :=
    fun mid hmid hsize => h.deeper hdeep hmid (Nat.le_of_lt hsize)
  cases hp with
  | block hlo => exact (Nonterminals.blockInside_tracks hlater h hlo hle hdeep).onwards_of_lt
  | group scope close hlo =>
      exact (Nonterminals.groupInside_tracks hlater scope close h hlo hle hdeep).onwards_of_lt
  | lambda hword => exact (Nonterminals.lambdaInside_tracks hlater h hle hword hdeep).onwards_of_lt
  | embedded hd => exact (hg .statement ⟨hd, hdeep, h.le_size⟩ trivial).onwards
  | sections hlo =>
      exact (braced_tracks hlo fun k mid hmid hsize hk =>
        Nonterminals.switchItem_tracks hlater.deeper (hinside mid hmid hsize) hk hmid
          trivial).onwards_of_lt
  | accessors hlo =>
      exact (braced_tracks hlo fun k mid hmid hsize hk =>
        Nonterminals.accessorItem_tracks hvalues (hinside mid hmid hsize) hk
          (Nat.le_of_lt hmid)).onwards_of_lt
  | members hlo =>
      exact (braced_tracks hlo fun k mid hmid hsize hk =>
        Nonterminals.typeItem_tracks hlater.deeper (hinside mid hmid hsize) hk hmid
          trivial).onwards_of_lt
  | values hlo =>
      exact (braced_tracks hlo fun k mid hmid hsize hk =>
        Nonterminals.enumItem_tracks hvalues (hinside mid hmid hsize) hk
          (Nat.le_of_lt hmid)).onwards_of_lt
  | namespaceMembers hlo =>
      exact (braced_tracks hlo fun _ mid hmid hsize _ =>
        Nonterminals.namespaceMember_tracks hlater.deeper (hinside mid hmid hsize) hsize hmid
          ⟨trivial, trivial⟩).onwards_of_lt

/-- A guard that is entered, with room to count on, counts one level more. -/
theorem Guard.eq_of_enter {guard opened : Guard} {limit : Nat} (h : guard.enter limit = .ok opened)
    (hlt : guard.depth < Guard.unlimited) : opened = ⟨guard.depth + 1⟩ ∧ guard.depth < limit := by
  have hnext : min (guard.depth + 1) Guard.unlimited = guard.depth + 1 := Nat.min_eq_left hlt
  have hle := Guard.depth_le_of_enter h
  simp only [Guard.enter, hnext] at h
  split at h
  · cases h
  · cases h
    exact ⟨rfl, hle⟩

/-- **A construct is left with the guard that it was entered with**, so something is open when it is
left, and what was open before is open again. -/
theorem Construct.closes {words : Words} {limit : Nat} {s : State} {opened : Guard}
    (few : words.size < Guard.unlimited) (hp : Construct words s.guard.depth s.pos p)
    (hd : s.guard.depth ≤ s.pos) (hlo : s.pos ≤ words.size)
    (hopen : s.guard.enter limit = .ok opened) :
    (p (grammarOf words) ⟨words, limit⟩ { s with guard := opened }).2.guard = opened ∧
      0 < opened.depth ∧ opened.leave = s.guard := by
  obtain ⟨lo, ⟨d⟩, faults⟩ := s
  have hlt : d < Guard.unlimited := Nat.lt_of_le_of_lt (Nat.le_trans hd hlo) few
  obtain ⟨rfl, hdeep⟩ := Guard.eq_of_enter hopen hlt
  have hready : (same words limit few).Ready d lo := ⟨hd, Nat.le_of_lt hdeep, hlo⟩
  obtain ⟨a, hi, more, hgives, -⟩ := hp.tracks hready hdeep fun z _ _ hr hz =>
    unfolded_tracks few (Nat.le_refl _) z hr hz
  exact ⟨congrArg (·.2.guard) (hgives faults), Nat.succ_pos d, rfl⟩

end SharpTokens.Grammar
