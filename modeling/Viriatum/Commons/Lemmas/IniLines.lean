import Mathlib.Data.List.Induction
import Viriatum.Commons.IniFiles

/-!
# The engine over lines

What the engine does over each line of a file, and over the whole of it.
-/

namespace Viriatum

open Structures Library Http2Connection

/-! ## The engine over a line -/

namespace IniPair

theorem trailingSize_append (text : Bytes) (count : Nat) (h : text.getLast? ≠ some 32) :
    trailingSize (text ++ List.replicate count 32) (text.length + count) = text.length := by
  induction count with
  | zero =>
      rw [Nat.add_zero, List.replicate_zero, List.append_nil]
      induction text using List.reverseRecOn with
      | nil => rfl
      | append_singleton text byte _ =>
          have hbyte : byte ≠ 32 := by simpa using h
          rw [List.length_append, List.length_singleton, trailingSize]
          simp [hbyte]
  | succ count ih =>
      -- the last space makes no difference to the loop over what stands before it
      have hprefix : ∀ (buffer : Bytes) (size : Nat), size ≤ buffer.length →
          trailingSize (buffer ++ [32]) size = trailingSize buffer size := by
        intro buffer size hsize
        induction size with
        | zero => rfl
        | succ size ihsize =>
            have hget : (buffer ++ [32]).getD size 0 = buffer.getD size 0 := by
              simp only [List.getD]
              rw [List.getElem?_append_left hsize]
            rw [trailingSize, trailingSize, hget, ihsize (Nat.le_of_succ_le hsize)]
      rw [List.replicate_succ', ← List.append_assoc, ← Nat.add_assoc, trailingSize]
      have hlast : (text ++ List.replicate count 32 ++ [32]).getD (text.length + count) 0 = 32 := by
        simp [List.getD]
      rw [if_pos hlast, hprefix _ _ (by simp), ih]

theorem take_keyText (p : IniPair) : p.keyText.take (trailingSize p.keyText p.keyText.length) = p.key := by
  have hsize := trailingSize_append p.key p.before p.key_trimmed
  rw [keyText, List.length_append, List.length_replicate, hsize, List.take_left]

theorem leadingOffset_append (text : Bytes) (count : Nat) (h : text.head? ≠ some 32) :
    leadingOffset (List.replicate count 32 ++ text) = count := by
  induction count with
  | zero =>
      cases text with
      | nil => rfl
      | cons byte rest =>
          have hbyte : byte ≠ 32 := by simpa using h
          simp [leadingOffset, hbyte]
  | succ count ih => simp [List.replicate_succ, leadingOffset, ih]

theorem drop_valueText (p : IniPair) : p.valueText.drop (leadingOffset p.valueText) = p.value := by
  rw [valueText, leadingOffset_append _ _ p.value_trimmed, List.drop_left' (List.length_replicate ..)]

theorem value_text (p : IniPair) : cString p.value = p.value :=
  cString_of_text fun hmem => (p.value_plain 0 hmem).2 rfl

end IniPair

namespace IniLine

/-- What a line that is ended does. -/
def act (malloc : Nat → Nat) (handler : IniHandler) : IniLine → Except IniStop IniHandler
  | .filler _ => .ok handler
  | .header name _ => handler.sectionEnd name
  | .pair p => do
      let handler ← handler.keyEnd p.keyText
      handler.valueEnd malloc p.valueText

/-- What a line that is not ended does. -/
def begin (handler : IniHandler) : IniLine → Except IniStop IniHandler
  | .filler _ => .ok handler
  | .header name _ => handler.sectionEnd name
  | .pair p => handler.keyEnd p.keyText

end IniLine

namespace IniEngine

variable {malloc : Nat → Nat}

/-- The bytes of a text that the engine skips in a state come behind its mark. -/
theorem foldlM_skip {state : IniState} {handler : IniHandler} {text : Bytes}
    (h : ∀ byte ∈ text, ∀ mark, step malloc { state, mark, handler } byte =
      .ok { state, mark := mark ++ [byte], handler }) (mark : Bytes) :
    text.foldlM (step malloc) { state, mark, handler } = .ok { state, mark := mark ++ text, handler } := by
  induction text generalizing mark with
  | nil => simp [pure, Except.pure]
  | cons byte rest ih =>
      rw [List.foldlM_cons, h byte List.mem_cons_self mark]
      simp only [bind, Except.bind]
      rw [ih fun byte hmem => h byte (List.mem_cons_of_mem _ hmem), List.append_assoc, List.singleton_append]

/-- Line ends between the lines are skipped. -/
theorem foldlM_ends (handler : IniHandler) (ends : Bytes) (h : ∀ byte ∈ ends, isLineEnd byte) :
    ends.foldlM (step malloc) { handler } = .ok { handler } := by
  induction ends with
  | nil => rfl
  | cons byte rest ih =>
      have hend := h byte List.mem_cons_self
      have hbyte : byte ≠ 91 ∧ byte ≠ 59 := by
        constructor <;> rintro rfl <;> exact absurd hend (by decide)
      rw [List.foldlM_cons]
      simp only [step, hbyte, hend, ↓reduceIte, bind, Except.bind]
      exact ih fun byte hmem => h byte (List.mem_cons_of_mem _ hmem)

theorem foldlM_comment (handler : IniHandler) {text : Bytes} (h : ∀ byte ∈ text, isLineEnd byte = false) :
    (59 :: text).foldlM (step malloc) { handler } = .ok { state := .comment, mark := text, handler } := by
  have hskip : text.foldlM (step malloc) { state := .comment, handler } = _ :=
    foldlM_skip (fun byte hmem mark => by simp [step, h byte hmem]) []
  rw [List.foldlM_cons]
  exact hskip

theorem foldlM_header (handler : IniHandler) {name : Bytes} (h : 93 ∉ name) :
    (91 :: (name ++ [93])).foldlM (step malloc) { handler } =
      (handler.sectionEnd name).map fun handler => { handler } := by
  have hskip : name.foldlM (step malloc) { state := .section, handler } = _ :=
    foldlM_skip (fun byte hmem mark => by
      have hbyte : byte ≠ 93 := fun heq => h (heq ▸ hmem)
      simp [step, hbyte]) []
  rw [List.nil_append] at hskip
  have hopen : step malloc { handler } 91 = .ok { state := .section, handler } := rfl
  rw [List.foldlM_cons, hopen]
  simp only [bind, Except.bind]
  rw [List.foldlM_append, hskip]
  simp only [bind, Except.bind, List.foldlM_cons, List.foldlM_nil, step, ↓reduceIte]
  cases handler.sectionEnd name <;> rfl

theorem foldlM_key (handler : IniHandler) (p : IniPair) :
    (p.keyText ++ [61]).foldlM (step malloc) { handler } =
      (handler.keyEnd p.keyText).map fun handler => { state := .value, handler } := by
  obtain ⟨first, rest, hkey, hsection, hcomment, hend⟩ := p.key_first
  have hplain : ∀ byte ∈ rest ++ List.replicate p.before 32, byte ≠ 61 := by
    intro byte hmem heq
    cases List.mem_append.mp hmem with
    | inl hin => exact p.key_plain.1 (by rw [hkey, ← heq]; exact List.mem_cons_of_mem _ hin)
    | inr hin => exact absurd (heq.symm.trans (List.eq_of_mem_replicate hin)) (by decide)
  have hskip : (rest ++ List.replicate p.before 32).foldlM (step malloc)
      { state := .key, mark := [first], handler } = _ :=
    foldlM_skip (fun byte hmem mark => by simp [step, hplain byte hmem]) [first]
  have htext : p.keyText = first :: (rest ++ List.replicate p.before 32) := by rw [IniPair.keyText, hkey]; rfl
  have hfirst : step malloc { handler } first = .ok { state := .key, mark := [first], handler } := by
    simp [step, hsection, hcomment, hend]
  rw [List.foldlM_append]
  rw [htext, List.foldlM_cons, hfirst]
  simp only [bind, Except.bind]
  rw [hskip]
  simp only [List.singleton_append, List.foldlM_cons, List.foldlM_nil, step, ↓reduceIte, bind, Except.bind]
  cases handler.keyEnd (first :: (rest ++ List.replicate p.before 32)) <;> rfl

theorem foldlM_value (handler : IniHandler) (p : IniPair) :
    p.valueText.foldlM (step malloc) { state := .value, handler } =
      .ok { state := .value, mark := p.valueText, handler } := by
  have hplain : ∀ byte ∈ p.valueText, isLineEnd byte = false := by
    intro byte hmem
    cases List.mem_append.mp hmem with
    | inl hin =>
        rw [List.eq_of_mem_replicate hin]
        rfl
    | inr hin => exact (p.value_plain byte hin).1
  exact foldlM_skip (fun byte hmem mark => by simp [step, hplain byte hmem]) []

/-- What the engine does over a line that the file ends in. -/
theorem foldlM_line (line : IniLine) (handler : IniHandler) :
    line.text.foldlM (step malloc) { handler } >>= (fun engine => .ok engine.handler) = line.begin handler := by
  cases line with
  | filler filler =>
      cases filler with
      | blank => rfl
      | comment text plain =>
          rw [IniLine.text, foldlM_comment handler plain]
          rfl
  | header name plain =>
      rw [IniLine.text, foldlM_header handler plain.1, IniLine.begin]
      cases handler.sectionEnd name <;> rfl
  | pair p =>
      have htext : (IniLine.pair p).text = p.keyText ++ [61] ++ p.valueText := by simp [IniLine.text]
      rw [htext, List.foldlM_append, foldlM_key, IniLine.begin]
      cases handler.keyEnd p.keyText with
      | error stop => rfl
      | ok handler' =>
          simp only [Except.map, bind, Except.bind]
          rw [foldlM_value]

theorem LineEnd.cases (ending : LineEnd) : ∃ first rest, ending.text = first :: rest ∧ isLineEnd first ∧
    ∀ byte ∈ rest, isLineEnd byte := by
  cases ending <;> exact ⟨_, _, rfl, by decide, by simp [isLineEnd]⟩

/-- What the engine does over a line that is ended. -/
theorem foldlM_ended (line : IniLine) (ending : LineEnd) (handler : IniHandler) :
    (line.text ++ ending.text).foldlM (step malloc) { handler } =
      (line.act malloc handler).map fun handler => { handler } := by
  obtain ⟨first, rest, hending, hfirst, hrest⟩ := LineEnd.cases ending
  have hends : ∀ handler : IniHandler, ending.text.foldlM (step malloc) { handler } = .ok { handler } := by
    intro handler
    apply foldlM_ends
    rw [hending]
    intro byte hmem
    cases hmem with
    | head => exact hfirst
    | tail _ hmem => exact hrest byte hmem
  rw [List.foldlM_append]
  cases line with
  | filler filler =>
      cases filler with
      | blank => exact hends handler
      | comment text plain =>
          rw [IniLine.text, foldlM_comment handler plain, hending]
          simp only [bind, Except.bind, List.foldlM_cons, step, hfirst, ↓reduceIte]
          exact foldlM_ends handler rest hrest
  | header name plain =>
      rw [IniLine.text, foldlM_header handler plain.1, IniLine.act]
      cases handler.sectionEnd name with
      | error stop => rfl
      | ok handler' => exact hends handler'
  | pair p =>
      have htext : (IniLine.pair p).text = p.keyText ++ [61] ++ p.valueText := by simp [IniLine.text]
      rw [htext, List.foldlM_append, foldlM_key, IniLine.act]
      cases handler.keyEnd p.keyText with
      | error stop => rfl
      | ok handler' =>
          simp only [Except.map, bind, Except.bind]
          rw [foldlM_value]
          simp only [hending, List.foldlM_cons, step, hfirst, ↓reduceIte, bind, Except.bind]
          cases handler'.valueEnd malloc p.valueText with
          | error stop => rfl
          | ok handler'' => exact foldlM_ends handler'' rest hrest

end IniEngine

/-! ## The engine over a file -/

/-- The pair of the last line, where it is not ended. -/
def unendedPair (ended : Bool) (lines : List (IniLine × LineEnd)) : Option IniPair :=
  if ended then none
  else match lines.getLast? with
    | some (.pair p, _) => some p
    | _ => none

/-- The lines without the last one, where that is a pair which is not ended. -/
def endedLines (ended : Bool) (lines : List (IniLine × LineEnd)) : List (IniLine × LineEnd) :=
  if (unendedPair ended lines).isSome then lines.dropLast else lines

def actLines (malloc : Nat → Nat) (handler : IniHandler) (lines : List (IniLine × LineEnd)) :
    Except IniStop IniHandler :=
  lines.foldlM (fun handler line => line.1.act malloc handler) handler

theorem renderIni_concat (ended : Bool) (lines : List (IniLine × LineEnd)) (last : IniLine × LineEnd) :
    renderIni ended (lines ++ [last]) =
      (lines.flatMap fun line => line.1.text ++ line.2.text) ++ (last.1.text ++ if ended then last.2.text else []) := by
  induction lines with
  | nil => rfl
  | cons line lines ih =>
      have hcons : renderIni ended (line :: (lines ++ [last])) =
          line.1.text ++ line.2.text ++ renderIni ended (lines ++ [last]) := by
        cases lines <;> rfl
      rw [List.cons_append, hcons, ih, List.flatMap_cons, List.append_assoc _ (lines.flatMap _)]

theorem foldlM_lines (malloc : Nat → Nat) (lines : List (IniLine × LineEnd)) (handler : IniHandler) :
    (lines.flatMap fun line => line.1.text ++ line.2.text).foldlM (IniEngine.step malloc) { handler } =
      (actLines malloc handler lines).map fun handler => { handler } := by
  induction lines generalizing handler with
  | nil => rfl
  | cons line lines ih =>
      rw [List.flatMap_cons, List.foldlM_append, IniEngine.foldlM_ended, actLines, List.foldlM_cons]
      cases line.1.act malloc handler with
      | error stop => rfl
      | ok handler' => exact ih handler'

/-- The lines that are ended take effect one after the other; of a pair that is not, only the key is read. -/
theorem processIni_render (malloc : Nat → Nat) (ended : Bool) (lines : List (IniLine × LineEnd)) :
    processIni malloc (renderIni ended lines) = actLines malloc {} (endedLines ended lines) >>= fun handler =>
      match unendedPair ended lines with
      | none => .ok handler
      | some p => handler.keyEnd p.keyText := by
  induction lines using List.reverseRecOn with
  | nil => cases ended <;> rfl
  | append_singleton lines last =>
      have hlines := foldlM_lines malloc lines {}
      rw [processIni, renderIni_concat, List.foldlM_append, hlines, endedLines, unendedPair, List.getLast?_concat]
      cases ended with
      | true =>
          have hconcat : actLines malloc {} (lines ++ [last]) =
              actLines malloc {} lines >>= fun handler => last.1.act malloc handler := by
            rw [actLines, List.foldlM_append]
            simp only [List.foldlM_cons, List.foldlM_nil, bind_pure]
            rfl
          have hended : ∀ handler : IniHandler,
              (last.1.text ++ last.2.text).foldlM (IniEngine.step malloc) { handler } = _ :=
            IniEngine.foldlM_ended last.1 last.2
          simp only [↓reduceIte, Option.isSome_none, Bool.false_eq_true, hconcat]
          cases actLines malloc {} lines with
          | error stop => rfl
          | ok handler =>
              simp only [Except.map, bind, Except.bind, hended]
              cases last.1.act malloc handler <;> rfl
      | false =>
          have hlast : ∀ handler : IniHandler, last.1.text.foldlM (IniEngine.step malloc) { handler } >>=
              (fun engine => .ok engine.handler) = last.1.begin handler := IniEngine.foldlM_line last.1
          obtain ⟨line, ending⟩ := last
          simp only [Bool.false_eq_true, ↓reduceIte, List.append_nil, bind_assoc]
          cases line with
          | pair p =>
              simp only [Option.isSome_some, ↓reduceIte, List.dropLast_concat]
              cases actLines malloc {} lines with
              | error stop => rfl
              | ok handler => exact hlast handler
          | filler filler =>
              simp only [Option.isSome_none, Bool.false_eq_true, ↓reduceIte, actLines, List.foldlM_append]
              cases lines.foldlM (fun handler line => line.1.act malloc handler) {} with
              | error stop => rfl
              | ok handler => exact hlast handler
          | header name plain =>
              simp only [Option.isSome_none, Bool.false_eq_true, ↓reduceIte, actLines, List.foldlM_append]
              cases lines.foldlM (fun handler line => line.1.act malloc handler) {} with
              | error stop => rfl
              | ok handler =>
                  refine (hlast handler).trans ?_
                  simp only [IniLine.begin, IniLine.act, bind, Except.bind, List.foldlM_cons, List.foldlM_nil]
                  cases handler.sectionEnd name <;> rfl

end Viriatum
