import Viriatum.Library.Bits

/-!
# Prefix codes

A decoder reads a sequence of bits one by one and gives a symbol back as soon as the bits gathered
since the last one are recognised. When the code of a symbol is recognised and none of the proper prefixes
of it is, the decoder takes a coded sequence of symbols back apart.
-/

namespace Viriatum.Library

variable {α : Type}

/-- Reads the bits after the gathered ones, giving back the symbols recognised and the bits left over. -/
def scan (recognise : List Bool → Option α) : List Bool → List Bool → List α × List Bool
  | gathered, [] => ([], gathered)
  | gathered, b :: bits =>
      match recognise (gathered ++ [b]) with
      | some a => (a :: (scan recognise [] bits).1, (scan recognise [] bits).2)
      | none => scan recognise (gathered ++ [b]) bits

/-- A code each one of whose words is recognised, none of the proper prefixes of it being. -/
structure PrefixCode (recognise : List Bool → Option α) (code : α → List Bool) (valid : α → Prop) : Prop where
  hit : ∀ a, valid a → recognise (code a) = some a
  miss : ∀ a, valid a → ∀ k, 0 < k → k < (code a).length → recognise ((code a).take k) = none
  nonempty : ∀ a, valid a → code a ≠ []

/-- Bits none of whose prefixes are recognised are only gathered. -/
theorem scan_gather (recognise : List Bool → Option α) (gathered bits rest : List Bool)
    (h : ∀ k, 0 < k → k ≤ bits.length → recognise (gathered ++ bits.take k) = none) :
    scan recognise gathered (bits ++ rest) = scan recognise (gathered ++ bits) rest := by
  induction bits generalizing gathered with
  | nil => simp
  | cons b bits ih =>
      have h1 : recognise (gathered ++ [b]) = none := by simpa using h 1 (by omega) (by simp)
      simp only [List.cons_append, scan, h1]
      rw [ih _ fun k hk hle => by
        have := h (k + 1) (by omega) (by simpa using hle)
        simpa using this]
      simp

theorem PrefixCode.scan_word {recognise : List Bool → Option α} {code : α → List Bool} {valid : α → Prop}
    (hc : PrefixCode recognise code valid) {a : α} (ha : valid a) (rest : List Bool) :
    scan recognise [] (code a ++ rest) =
      (a :: (scan recognise [] rest).1, (scan recognise [] rest).2) := by
  obtain ⟨front, last, hw⟩ : ∃ front last, code a = front ++ [last] :=
    ⟨_, _, (List.dropLast_concat_getLast (hc.nonempty a ha)).symm⟩
  have hgather := scan_gather recognise [] front (last :: rest) fun k hk hle => by
    have := hc.miss a ha k hk (by simp [hw]; omega)
    rw [hw, List.take_append_of_le_length hle] at this
    simpa using this
  rw [hw, List.append_assoc, List.singleton_append, hgather]
  have hhit := hc.hit a ha
  rw [hw] at hhit
  simp [scan, hhit]

/-- The words of a sequence of symbols, followed by bits that are not recognised, are taken back apart. -/
theorem PrefixCode.scan_words {recognise : List Bool → Option α} {code : α → List Bool} {valid : α → Prop}
    (hc : PrefixCode recognise code valid) (as : List α) (pad : List Bool) (ha : ∀ a ∈ as, valid a)
    (hpad : ∀ k, 0 < k → k ≤ pad.length → recognise (pad.take k) = none) :
    scan recognise [] (as.flatMap code ++ pad) = (as, pad) := by
  induction as with
  | nil =>
      have := scan_gather recognise [] pad [] (by simpa using hpad)
      simpa [scan] using this
  | cons a as ih =>
      rw [List.flatMap_cons, List.append_assoc, hc.scan_word (ha a (by simp)),
        ih fun a h => ha a (by simp [h])]

/-- Where only the words are recognised, what is taken apart is put back together by the code. -/
theorem scan_sound {recognise : List Bool → Option α} {code : α → List Bool} {as : List α} {gathered bits left : List Bool}
    (hsound : ∀ w a, recognise w = some a → w = code a) (h : scan recognise gathered bits = (as, left)) :
    gathered ++ bits = as.flatMap code ++ left := by
  induction bits generalizing gathered as with
  | nil =>
      cases h
      simp
  | cons b bits ih =>
      cases hw : recognise (gathered ++ [b]) with
      | none =>
          simp only [scan, hw] at h
          simpa using ih h
      | some a =>
          simp only [scan, hw, Prod.mk.injEq] at h
          obtain ⟨rfl, rfl⟩ := h
          have hrest : [] ++ bits = _ := ih rfl
          rw [List.nil_append] at hrest
          rw [List.flatMap_cons, List.append_assoc, ← hrest, ← hsound _ a hw]
          simp

end Viriatum.Library
