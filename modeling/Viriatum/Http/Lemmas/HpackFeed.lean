import Viriatum.Http.Synchronisation

/-!
# The decoding of a block in two parts

A block that is decoded with a callback gives the callback the fields that it is read into, one after the other, up to
the first that the callback refuses.
-/

namespace Viriatum

open Library Effect

/-- Hands some fields to a callback, up to the first that it refuses. -/
def feed {ε σ : Type} (callback : HpackHeader → Effect ε σ Unit) : List HpackHeader → Effect ε σ Unit
  | [] => pure ()
  | header :: headers => do
      callback header
      feed callback headers

/-- A round of the decoding. -/
theorem decodeRepresentations_run {ε σ : Type} (callback : HpackHeader → Effect ε σ Unit) (refuse : HpackError → ε)
    (rounds listSize : Nat) (field : Bool) (byte : UInt8) (rest : Bytes) (table : HpackTable) (s : σ) :
    (decodeRepresentations callback refuse (rounds + 1) listSize field (byte :: rest)).run (table, s) =
      if byte &&& 0xe0 = 0x20 then
        if field then (.error (refuse .sizeUpdateAfterField), (table, s))
        else
          match decodeInteger 5 (byte :: rest) with
          | .error e => (.error (refuse e), (table, s))
          | .ok (maxSize, rest) =>
              match table.resize maxSize with
              | .error e => (.error (refuse e), (table, s))
              | .ok table => (decodeRepresentations callback refuse rounds listSize field rest).run (table, s)
      else
        match decodeField table byte (byte :: rest) with
        | .error e => (.error (refuse e), (table, s))
        | .ok (header, table, rest) =>
            if listSize + header.size > hpackMaxHeaderListSize then (.error (refuse .listAboveAccepted), (table, s))
            else
              match (callback header).run s with
              | (.error e, s) => (.error e, (table, s))
              | (.ok _, s) =>
                  (decodeRepresentations callback refuse rounds (listSize + header.size) true rest).run (table, s) := by
  rw [decodeRepresentations, run_bind, run_get]
  by_cases hbyte : byte &&& 0xe0 = 0x20
  · simp only [if_pos hbyte]
    cases field with
    | true => rfl
    | false =>
        cases decodeInteger 5 (byte :: rest) with
        | error e => rfl
        | ok read =>
            obtain ⟨maxSize, rest'⟩ := read
            simp only [Bool.false_eq_true, if_false]
            cases table.resize maxSize with
            | error e => rfl
            | ok table' => simp only [run_bind, run_set]
  · simp only [if_neg hbyte]
    cases decodeField table byte (byte :: rest) with
    | error e => rfl
    | ok read =>
        obtain ⟨header, table', rest'⟩ := read
        simp only [run_bind, run_set]
        split
        · rfl
        · simp only [run_bind, run_second]
          rcases (callback header).run s with ⟨_ | _, _⟩ <;> rfl

/-- The reading of a block gives the fields and ends in the result, with the table that is left. -/
def Feeds (table : HpackTable) (rounds listSize : Nat) (field : Bool) (data : Bytes) (result : Except HpackError Bytes)
    (table' : HpackTable) (headers : List HpackHeader) : Prop :=
  (∀ kept, (decodeRepresentations record id rounds listSize field data).run (table, kept) =
    (result, (table', kept ++ headers))) ∧
  ∀ {ε σ : Type} (callback : HpackHeader → Effect ε σ Unit) (refuse : HpackError → ε) (s : σ),
    wp (feed callback headers)
      (fun _ s' => (decodeRepresentations callback refuse rounds listSize field data).run (table, s) =
        (result.mapError refuse, (table', s')))
      (fun e s' => ∃ table'', (decodeRepresentations callback refuse rounds listSize field data).run (table, s) =
        (.error e, (table'', s'))) s

theorem feeds_end {table table' : HpackTable} {rounds listSize : Nat} {field : Bool} {data : Bytes}
    {result : Except HpackError Bytes}
    (h : ∀ {ε σ : Type} (callback : HpackHeader → Effect ε σ Unit) (refuse : HpackError → ε) (s : σ),
      (decodeRepresentations callback refuse rounds listSize field data).run (table, s) =
        (result.mapError refuse, (table', s))) : Feeds table rounds listSize field data result table' [] := by
  refine ⟨fun kept => ?_, fun callback refuse s => h callback refuse s⟩
  rw [h, List.append_nil]
  cases result <;> rfl

/-- Every block is read in this way. -/
theorem exists_feeds (table : HpackTable) (rounds listSize : Nat) (field : Bool) (data : Bytes) :
    ∃ result table' headers, Feeds table rounds listSize field data result table' headers := by
  induction rounds generalizing table listSize field data with
  | zero =>
      refine ⟨.ok data, table, [], feeds_end fun callback refuse s => ?_⟩
      cases data <;> rfl
  | succ rounds ih =>
      cases data with
      | nil => exact ⟨.ok [], table, [], feeds_end fun _ _ _ => rfl⟩
      | cons byte rest =>
          by_cases hbyte : byte &&& 0xe0 = 0x20
          · by_cases hfield : field = true
            · refine ⟨.error .sizeUpdateAfterField, table, [], feeds_end fun callback refuse s => ?_⟩
              rw [decodeRepresentations_run, if_pos hbyte, if_pos hfield]
              rfl
            · cases hinteger : decodeInteger 5 (byte :: rest) with
              | error e =>
                  refine ⟨.error e, table, [], feeds_end fun callback refuse s => ?_⟩
                  rw [decodeRepresentations_run, if_pos hbyte, if_neg hfield, hinteger]
                  rfl
              | ok read =>
                  obtain ⟨maxSize, rest'⟩ := read
                  cases hresize : table.resize maxSize with
                  | error e =>
                      refine ⟨.error e, table, [], feeds_end fun callback refuse s => ?_⟩
                      rw [decodeRepresentations_run, if_pos hbyte, if_neg hfield, hinteger]
                      simp only [hresize]
                      rfl
                  | ok resized =>
                      obtain ⟨result, table', headers, hpure, hfeeds⟩ := ih resized listSize field rest'
                      have hround : ∀ {ε σ : Type} (callback : HpackHeader → Effect ε σ Unit) (refuse : HpackError → ε)
                          (s : σ), (decodeRepresentations callback refuse (rounds + 1) listSize field
                            (byte :: rest)).run (table, s) =
                          (decodeRepresentations callback refuse rounds listSize field rest').run (resized, s) := by
                        intro _ _ callback refuse s
                        rw [decodeRepresentations_run, if_pos hbyte, if_neg hfield, hinteger]
                        simp only [hresize]
                      refine ⟨result, table', headers, fun kept => by rw [hround, hpure], fun callback refuse s => ?_⟩
                      simp only [hround]
                      exact hfeeds callback refuse s
          · cases hread : decodeField table byte (byte :: rest) with
            | error e =>
                refine ⟨.error e, table, [], feeds_end fun callback refuse s => ?_⟩
                rw [decodeRepresentations_run, if_neg hbyte, hread]
                rfl
            | ok read =>
                obtain ⟨header, after, rest'⟩ := read
                by_cases hsize : listSize + header.size > hpackMaxHeaderListSize
                · refine ⟨.error .listAboveAccepted, after, [], feeds_end fun callback refuse s => ?_⟩
                  rw [decodeRepresentations_run, if_neg hbyte, hread]
                  simp only [if_pos hsize]
                  rfl
                · obtain ⟨result, table', headers, hpure, hfeeds⟩ := ih after (listSize + header.size) true rest'
                  refine ⟨result, table', header :: headers, fun kept => ?_, fun callback refuse s => ?_⟩
                  · rw [decodeRepresentations_run, if_neg hbyte, hread]
                    simp only [if_neg hsize]
                    have hrecord : (record header).run kept = (.ok (), kept ++ [header]) := rfl
                    rw [hrecord]
                    simp only
                    rw [hpure, List.append_assoc, List.singleton_append]
                  · simp only [decodeRepresentations_run callback, if_neg hbyte, hread, if_neg hsize, feed, wp_bind]
                    unfold wp
                    cases hcallback : (callback header).run s with
                    | mk result' s' =>
                        cases result' with
                        | error e => exact ⟨after, rfl⟩
                        | ok a => exact hfeeds callback refuse s'

end Viriatum
