import SharpTokens.Token.Response
import SharpTokens.Proofs.Json.RoundTrip

/-!
# Answers are read back

Every answer is read back from its bytes (`Response.parse?_render`), whatever tokens and whatever
reason are in it.

The reader of JSON gives back the value that was written, so it remains to read tokens and reasons
back from values.
-/

namespace SharpTokens

theorem Json.asWord?_natural (n : UInt32) : (Json.natural n.toNat).asWord? = some n := by
  rw [Json.asWord?, if_pos n.toNat_lt_size]
  simp

namespace Token

/-- A token is read back from its fields. -/
theorem ofJson?_toJson (t : Token) : ofJson? t.toJson = some t := by
  have hfields : t.toJson.fields? keys =
      some [some (.natural t.line.toNat), some (.natural t.start.toNat),
      some (.natural t.length.toNat), some (.natural t.type.toNat),
      some (.natural t.modifiers.toNat)] := by
    simp [toJson, Json.fields?, keys]
  simp only [ofJson?, hfields, Json.asWord?_natural]
  rfl

theorem mapM_ofJson?_toJson (ts : List Token) : (ts.map toJson).mapM ofJson? = some ts := by
  induction ts with
  | nil => rfl
  | cons t ts ih => simp [ofJson?_toJson, ih]

end Token

namespace Response

/-- An answer is read back, with or without a reason. -/
theorem ofJson?_toJson (r : Response) : ofJson? r.toJson = some r := by
  obtain ⟨tokens, error⟩ := r
  have hfields : (toJson ⟨tokens, error⟩).fields? ["Tokens", "Error"]
      = some [some (.array (tokens.map Token.toJson)), error.map Json.text] := by
    cases error with
    | none => simp [toJson, Json.fields?]
    | some reason => simp [toJson, Json.fields?]
  have herror : errorOfJson? (error.map Json.text) = some error := by
    cases error with
    | none => rfl
    | some reason => rfl
  simp only [ofJson?, hfields, Json.asArray?, herror, Option.bind_eq_bind, Option.bind_some,
    Token.mapM_ofJson?_toJson]
  rfl

/-- **Answers are read back.** -/
theorem parse?_render (r : Response) : parse? r.render = some r := by
  rw [parse?, render, Json.parse?_render, Option.bind_some, ofJson?_toJson]

/-- An answer has at least one byte. -/
theorem render_ne_nil (r : Response) : r.render ≠ [] := by
  intro h
  have := r.parse?_render
  rw [h] at this
  cases this

end Response

end SharpTokens
