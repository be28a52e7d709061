import Viriatum.Http.Lemmas.Hpack

/-!
# The tables of both ends stay the same

An encoder and a decoder whose tables start the same keep them the same through every block.
-/

namespace Viriatum

open Library Effect

/-- The fields of a block, each with whether the encoder may insert it. -/
abbrev Block := List (HpackHeader × Bool)

def Block.headers (block : Block) : List HpackHeader := block.map Prod.fst

/-- The limits of the codec, on every field and on the list of them. -/
structure Block.Within (block : Block) : Prop where
  header : ∀ header ∈ block.headers, header.Within
  list : HpackRing.sizeOf block.headers ≤ hpackMaxHeaderListSize

instance (block : Block) : Decidable block.Within :=
  decidable_of_iff ((∀ header ∈ block.headers, header.Within) ∧
    HpackRing.sizeOf block.headers ≤ hpackMaxHeaderListSize) ⟨fun h => ⟨h.1, h.2⟩, fun h => ⟨h.1, h.2⟩⟩

def encodeBlock (bufferSize : Nat) : Block → Effect HpackError (HpackTable × Bytes) Unit
  | [] => pure ()
  | (header, indexing) :: block => do
      encodeHpack bufferSize header indexing
      encodeBlock bufferSize block

/-- The callback that keeps the fields it is handed, in order. -/
def record (header : HpackHeader) : Effect HpackError (List HpackHeader) Unit := modify (· ++ [header])

/-- The tables of both ends after a block. -/
def HpackTable.afterBlock (table : HpackTable) : Block → HpackTable
  | [] => table
  | (header, indexing) :: block => (table.after header indexing).afterBlock block

theorem HpackTable.Same.afterBlock {t u : HpackTable} (h : t.Same u) (block : Block) :
    (t.afterBlock block).Same (u.afterBlock block) := by
  induction block generalizing t u with
  | nil => exact h
  | cons field block ih => exact ih (h.after field.1 field.2)

/-- The bytes are read as the rest of a block by a decoder whose table is the same as the one of the encoder. -/
def BlockCode (table : HpackTable) (block : Block) (coded : Bytes) : Prop :=
  ∀ decoder : HpackTable, table.Same decoder → ∀ rounds listSize field headers,
    coded.length ≤ rounds → listSize + HpackRing.sizeOf block.headers ≤ hpackMaxHeaderListSize →
      wp (decodeRepresentations record id rounds listSize field coded)
        (fun rest s => rest = [] ∧ s = (decoder.afterBlock block, headers ++ block.headers))
        (fun _ _ => False) (decoder, headers)

theorem BlockCode.nil (table : HpackTable) : BlockCode table [] [] := by
  intro decoder _ rounds listSize field headers _ _
  rw [decodeRepresentations]
  exact ⟨rfl, by simp [HpackTable.afterBlock, Block.headers]⟩

theorem BlockCode.cons {table : HpackTable} {header : HpackHeader} {indexing : Bool} {block : Block}
    {first coded : Bytes} (hfirst : FieldCode table header indexing first)
    (h : BlockCode (table.after header indexing) block coded) :
    BlockCode table ((header, indexing) :: block) (first ++ coded) := by
  intro decoder hsame rounds listSize field headers hrounds hsize
  obtain ⟨byte, tail, rfl, hbyte, hdecode⟩ := hfirst.decode
  obtain ⟨rounds, rfl⟩ : ∃ r, rounds = r + 1 := by
    cases rounds with
    | zero => simp at hrounds
    | succ r => exact ⟨r, rfl⟩
  have hheaders : Block.headers ((header, indexing) :: block) = header :: block.headers := rfl
  rw [hheaders, HpackRing.sizeOf_cons] at hsize
  rw [List.cons_append, wp_decodeRepresentations_field hbyte (hdecode coded decoder hsame) (by omega)]
  simp only [record, wp_modify]
  refine (h _ (hsame.after header indexing) rounds _ true _ ?_ (by omega)).mono ?_ fun _ _ h => h
  · simp only [List.length_append, List.length_cons] at hrounds
    omega
  · rintro _ _ ⟨rfl, rfl⟩
    exact ⟨rfl, by simp [HpackTable.afterBlock, hheaders]⟩

theorem encodeBlock_spec {n : Nat} {table : HpackTable} {block : Block} {buffer : Bytes}
    (hw : ∀ header ∈ block.headers, header.Within) (hn : buffer.length + HpackRing.sizeOf block.headers ≤ n) :
    wp (encodeBlock n block)
      (fun _ s => ∃ coded, s = (table.afterBlock block, buffer ++ coded) ∧ BlockCode table block coded)
      (fun _ _ => False) (table, buffer) := by
  induction block generalizing table buffer with
  | nil => exact ⟨[], by simp [HpackTable.afterBlock], .nil table⟩
  | cons field block ih =>
      obtain ⟨header, indexing⟩ := field
      have hheaders : Block.headers ((header, indexing) :: block) = header :: Block.headers block := rfl
      rw [hheaders] at hw hn
      rw [HpackRing.sizeOf_cons] at hn
      simp only [encodeBlock, wp_bind]
      refine (encodeHpack_spec (hw header (by simp)) indexing (by omega)).mono ?_ fun _ _ h => h.elim
      rintro _ _ ⟨first, rfl, hfirst⟩
      have hlength := hfirst.length_le
      refine (ih (fun h hm => hw h (by simp [hm])) (by rw [List.length_append]; omega)).mono ?_ fun _ _ h => h.elim
      rintro _ _ ⟨coded, rfl, hcode⟩
      exact ⟨first ++ coded, by simp [HpackTable.afterBlock], .cons hfirst hcode⟩

/-- Each block, encoded into a buffer of the size it comes with, is decoded into its own fields in order and to its
last byte, and the tables are the same after it. -/
def Synchronised (encoder decoder : HpackTable) : List (Nat × Block) → Prop
  | [] => True
  | (bufferSize, block) :: blocks => ∃ coded encoder' decoder',
      (encodeBlock bufferSize block).run (encoder, []) = (.ok (), (encoder', coded)) ∧
      (decodeHpack record id coded).run (decoder, []) = (.ok [], (decoder', block.headers)) ∧
      encoder'.Same decoder' ∧ Synchronised encoder' decoder' blocks

/-- A block is transferred from an encoder to a decoder whose table is the same. -/
theorem transfer_block {n : Nat} {encoder decoder : HpackTable} {block : Block} (hsame : encoder.Same decoder)
    (hw : block.Within) (hn : HpackRing.sizeOf block.headers ≤ n) :
    ∃ coded, (encodeBlock n block).run (encoder, []) = (.ok (), (encoder.afterBlock block, coded)) ∧
      (decodeHpack record id coded).run (decoder, []) = (.ok [], (decoder.afterBlock block, block.headers)) := by
  have hencode : wp (encodeBlock n block) _ _ (encoder, []) := encodeBlock_spec hw.header (by simpa using hn)
  obtain ⟨_, _, hrun, coded, rfl, hcode⟩ := hencode.run_ok
  have hdecode := hcode decoder hsame coded.length 0 false [] le_rfl (by simpa using hw.list)
  obtain ⟨_, _, hrun', rfl, rfl⟩ := hdecode.run_ok
  exact ⟨coded, hrun, hrun'⟩

theorem tables_stay_same {encoder decoder : HpackTable} {blocks : List (Nat × Block)} (hsame : encoder.Same decoder)
    (hw : ∀ b ∈ blocks, b.2.Within) (hn : ∀ b ∈ blocks, HpackRing.sizeOf b.2.headers ≤ b.1) :
    Synchronised encoder decoder blocks := by
  induction blocks generalizing encoder decoder with
  | nil => trivial
  | cons b blocks ih =>
      obtain ⟨coded, hencode, hdecode⟩ := transfer_block hsame (hw b (by simp)) (hn b (by simp))
      have hafter := hsame.afterBlock b.2
      exact ⟨coded, _, _, hencode, hdecode, hafter,
        ih hafter (fun b hb => hw b (by simp [hb])) fun b hb => hn b (by simp [hb])⟩

theorem tables_stay_same_twice : Synchronised .create .create
    [ (256, [(.ofStrings ":status" "200", false), (.ofStrings "x-page" "about", true)]),
      (256, [(.ofStrings "x-page" "about", true), (.ofStrings "x-page" "home", false)]) ] :=
  tables_stay_same (.refl _) (by decide +kernel) (by decide +kernel)

end Viriatum
