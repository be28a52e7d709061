import Viriatum.Commons.HashMap

/-!
# The hash map as a finite map

When the table of a hash map says of each string what has been set for it, and when its size counts the strings.
-/

namespace Viriatum.Structures

open Library

namespace HashMap

variable {hash : Bytes → Nat} {map map' : HashMap} {s : FiniteMap} {element : HashMapElement}

/-- A table whose elements are found by their keys, which are the hashes of their strings, and that has room. -/
structure Sound (hash : Bytes → Nat) (map : HashMap) : Prop where
  settled : Settled HashMapElement.key map.elements
  keys : ∀ element, some element ∈ map.elements → element.key = hash element.keyString.text
  used : map.elements.reduceOption.length ≤ map.size
  size : map.size ≤ map.maximumSize
  maximum : map.maximumSize = maximumLoad map.elements.length
  positive : 0 < map.elements.length

theorem Sound.free (h : map.Sound hash) : none ∈ map.elements := by
  apply exists_none
  have hused := h.used
  have hsize := h.size
  have hpositive := h.positive
  rw [h.maximum, maximumLoad] at hsize
  omega

theorem sound_create (hash : Bytes → Nat) (initialSize : Nat) : (createHashMap initialSize).Sound hash := by
  have hnone : ∀ length : Nat, (List.replicate length (none : Option HashMapElement)).reduceOption = [] := by
    intro length
    simp [List.reduceOption]
  refine ⟨settled_replicate, ?_, ?_, Nat.zero_le _, ?_, ?_⟩
  · intro element hmem
    simp [createHashMap] at hmem
  · simp [createHashMap, hnone]
  · simp [createHashMap]
  · rw [createHashMap, List.length_replicate]
    split
    · decide
    · omega

/-! ## Setting -/

/-- What putting an element into a table leaves. -/
structure Puts (map : HashMap) (element : HashMapElement) (map' : HashMap) : Prop where
  size : map'.size = map.size + 1
  maximum : map'.maximumSize = map.maximumSize
  length : map'.elements.length = map.elements.length
  settled : Settled HashMapElement.key map'.elements
  mem : ∀ other, some other ∈ map'.elements ↔
    other = element ∨ some other ∈ map.elements ∧ other.key ≠ element.key
  used_new : (∀ other, some other ∈ map.elements → other.key ≠ element.key) →
    map'.elements.reduceOption.length = map.elements.reduceOption.length + 1
  used_le : map'.elements.reduceOption.length ≤ map.elements.reduceOption.length + 1

theorem put_eq (hsettled : Settled HashMapElement.key map.elements) (hfree : none ∈ map.elements)
    (element : HashMapElement) : ∃ map', map.put element = some map' ∧ map.Puts element map' := by
  obtain ⟨index, hsearch⟩ := exists_search hfree (fun other => other.key = element.key) element.key
  have hsearchKey : searchKey HashMapElement.key map.elements element.key = some index := hsearch
  refine ⟨{ map with size := map.size + 1, elements := map.elements.set index (some element) }, ?_, rfl, rfl,
    List.length_set, hsettled.set hsearchKey, fun other => hsettled.mem_set hsearchKey,
    fun hnew => length_set_new hsearchKey hnew, ?_⟩
  · rw [put, hsearchKey]
    rfl
  by_cases hnew : ∀ other, some other ∈ map.elements → other.key ≠ element.key
  · exact Nat.le_of_eq (length_set_new hsearchKey hnew)
  · obtain ⟨other, hother⟩ := not_forall.mp hnew
    obtain ⟨hmem, hkey⟩ := Classical.not_imp.mp hother
    exact Nat.le_succ_of_le (Nat.le_of_eq (hsettled.length_set_old hsearchKey hmem (not_not.mp hkey)))

theorem Puts.sound (h : map.Puts element map') (hsound : map.Sound hash) (hroom : map.size < map.maximumSize)
    (hkey : element.key = hash element.keyString.text) : map'.Sound hash where
  settled := h.settled
  keys other hmem := by
    cases (h.mem other).mp hmem with
    | inl heq => rw [heq, hkey]
    | inr hold => exact hsound.keys other hold.1
  used := by
    have hused := h.used_le
    have hold := hsound.used
    rw [h.size]
    omega
  size := by
    rw [h.size, h.maximum]
    exact hroom
  maximum := by rw [h.maximum, hsound.maximum, h.length]
  positive := by
    rw [h.length]
    exact hsound.positive

/-- Copying elements of different keys into a table that has none of these keys and has room for them all. -/
theorem copyAll_eq (items : List HashMapElement) (hsound : map.Sound hash)
    (hroom : map.size + items.length ≤ map.maximumSize) (hitems : ∀ item ∈ items, item.key = hash item.keyString.text)
    (hkeys : items.Pairwise fun item item' => item.key ≠ item'.key)
    (hnew : ∀ item ∈ items, ∀ other, some other ∈ map.elements → other.key ≠ item.key) :
    ∃ map', items.foldlM copyElement map = some map' ∧ map'.Sound hash ∧ map'.size = map.size + items.length ∧
      map'.maximumSize = map.maximumSize ∧ (∀ other, some other ∈ map'.elements ↔ other ∈ items ∨ some other ∈ map.elements) ∧
      map'.elements.reduceOption.length = map.elements.reduceOption.length + items.length := by
  induction items generalizing map with
  | nil => exact ⟨map, rfl, hsound, rfl, rfl, by simp, rfl⟩
  | cons item items ih =>
      rw [List.length_cons] at hroom
      obtain ⟨hfirst, hrest⟩ := List.pairwise_cons.mp hkeys
      obtain ⟨map₁, hput, hputs⟩ := put_eq hsound.settled hsound.free item
      have hsound₁ := hputs.sound hsound (by omega) (hitems item List.mem_cons_self)
      have hroom₁ : map₁.size + items.length ≤ map₁.maximumSize := by
        rw [hputs.size, hputs.maximum]
        omega
      have hnew₁ : ∀ item' ∈ items, ∀ other, some other ∈ map₁.elements → other.key ≠ item'.key := by
        intro item' hmem other hother
        cases (hputs.mem other).mp hother with
        | inl heq => rw [heq]; exact hfirst item' hmem
        | inr hold => exact hnew item' (List.mem_cons_of_mem _ hmem) other hold.1
      obtain ⟨map', hcopy, hsound', hsize, hmaximum, hmem, hused⟩ :=
        ih hsound₁ hroom₁ (fun item' hmem => hitems item' (List.mem_cons_of_mem _ hmem)) hrest hnew₁
      refine ⟨map', ?_, hsound', ?_, hmaximum.trans hputs.maximum, fun other => ?_, ?_⟩
      · rw [List.foldlM_cons, copyElement, if_neg (by omega), hput]
        exact hcopy
      · rw [hsize, hputs.size, List.length_cons]
        omega
      · rw [hmem, hputs.mem, List.mem_cons]
        constructor
        · rintro (hin | rfl | ⟨hold, _⟩)
          · exact .inl (.inr hin)
          · exact .inl (.inl rfl)
          · exact .inr hold
        · rintro ((rfl | hin) | hold)
          · exact .inr (.inl rfl)
          · exact .inl hin
          · exact .inr (.inr ⟨hold, hnew item List.mem_cons_self other hold⟩)
      · rw [hused, hputs.used_new (hnew item List.mem_cons_self), List.length_cons]
        omega

/-- The elements of a settled table have different keys. -/
theorem pairwise_keys (h : Settled HashMapElement.key map.elements) :
    map.elements.reduceOption.Pairwise fun item item' => item.key ≠ item'.key := by
  rw [List.reduceOption, List.pairwise_filterMap, List.pairwise_iff_getElem]
  intro i j hi hj hlt item hitem item' hitem' hkey
  have hfirst : map.elements[i]? = some (some item) := by rw [List.getElem?_eq_getElem hi, show map.elements[i] = some item from hitem]
  have hsecond : map.elements[j]? = some (some item') := by rw [List.getElem?_eq_getElem hj, show map.elements[j] = some item' from hitem']
  have hsame := (h.unique hfirst hsecond hkey).1
  omega

/-- Rebuilding the table keeps its elements, and counts them anew. -/
theorem resizeHashMap_eq (h : map.Sound hash) : ∃ map', map.resizeHashMap = some map' ∧ map'.Sound hash ∧
    map'.size = map.elements.reduceOption.length ∧ map'.size < map'.maximumSize ∧
    (∀ other, some other ∈ map'.elements ↔ some other ∈ map.elements) ∧
    map'.elements.reduceOption.length = map.elements.reduceOption.length := by
  have hused := h.used
  have hsize := h.size
  have hpositive := h.positive
  rw [h.maximum, maximumLoad] at hsize
  let fresh : HashMap :=
    { size := 0
      maximumSize := maximumLoad (map.elements.length * defaultResizeFactor)
      elements := List.replicate (map.elements.length * defaultResizeFactor) none }
  have hnone : fresh.elements.reduceOption = [] := by simp [fresh, List.reduceOption]
  have hempty : ∀ other, some other ∉ fresh.elements := fun other hmem => by simp [fresh] at hmem
  have hfresh : fresh.Sound hash := by
    refine ⟨settled_replicate, fun element hmem => absurd hmem (hempty element), ?_, Nat.zero_le _, ?_, ?_⟩
    · rw [hnone]
      exact Nat.zero_le _
    · simp [fresh]
    · simp only [fresh, List.length_replicate, defaultResizeFactor]
      omega
  have hmaximum : fresh.maximumSize = map.elements.length * 3 := by
    simp only [fresh, maximumLoad, defaultResizeFactor]
    omega
  obtain ⟨map', hcopy, hsound, hsize', hmaximum', hmem, hused'⟩ := copyAll_eq map.elements.reduceOption hfresh
    (by rw [hmaximum]; change 0 + _ ≤ _; omega)
    (fun item hin => h.keys item (List.reduceOption_mem_iff.mp hin)) (pairwise_keys h.settled)
    (fun item _ other hother => absurd hother (hempty other))
  have hcount : map'.size = map.elements.reduceOption.length := by
    rw [hsize']
    exact Nat.zero_add _
  refine ⟨map', hcopy, hsound, hcount, ?_, fun other => ?_, ?_⟩
  · rw [hcount, hmaximum', hmaximum]
    omega
  · rw [hmem, List.reduceOption_mem_iff]
    exact or_iff_left (hempty other)
  · rw [hused', hnone]
    exact Nat.zero_add _

/-- What a call leaves: the elements of the other hashes, and the new one. -/
structure Sets (hash : Bytes → Nat) (map : HashMap) (call : SetCall) (map' : HashMap) : Prop where
  sound : map'.Sound hash
  mem : ∀ other, some other ∈ map'.elements ↔
    other = { value := call.value, key := hash call.text, keyString := call.keyString } ∨
      some other ∈ map.elements ∧ other.key ≠ hash call.text
  size : map'.size = map.size + 1 ∨ map'.size = map.elements.reduceOption.length + 1
  used_new : (∀ other, some other ∈ map.elements → other.key ≠ hash call.text) →
    map'.elements.reduceOption.length = map.elements.reduceOption.length + 1

/-- Every call on a sound table comes to its end. -/
theorem set_eq (h : map.Sound hash) (call : SetCall) : ∃ map', map.set hash call = some map' ∧ map.Sets hash call map' := by
  by_cases hfull : map.size ≥ map.maximumSize
  · obtain ⟨map₁, hresize, hsound₁, hsize₁, hroom, hmem₁, hused₁⟩ := resizeHashMap_eq h
    obtain ⟨map', hput, hputs⟩ := put_eq hsound₁.settled hsound₁.free
      { value := call.value, key := hash call.text, keyString := call.keyString }
    refine ⟨map', ?_, hputs.sound hsound₁ hroom rfl, fun other => ?_, .inr ?_, fun hnew => ?_⟩
    · rw [set, setValueHashMap, if_pos hfull, hresize]
      exact hput
    · rw [hputs.mem, hmem₁]
    · rw [hputs.size, hsize₁]
    · rw [hputs.used_new (fun other hmem => hnew other ((hmem₁ other).mp hmem)), hused₁]
  · obtain ⟨map', hput, hputs⟩ := put_eq h.settled h.free
      { value := call.value, key := hash call.text, keyString := call.keyString }
    refine ⟨map', ?_, hputs.sound h (Nat.lt_of_not_le hfull) rfl, hputs.mem, .inl hputs.size, hputs.used_new⟩
    rw [set, setValueHashMap, if_neg hfull]
    exact hput

/-! ## Getting -/

/-- The element of a string is the one that is found for it. -/
theorem getHashMap_of_mem (h : map.Sound hash) (hmem : some element ∈ map.elements) :
    map.getHashMap (hash element.keyString.text) element.keyString.text = some (some element) := by
  obtain ⟨index, hindex⟩ := List.mem_iff_getElem?.mp hmem
  have hkey := h.keys element hmem
  have hsearch := search_of_searchKey
    (fun other => other.key = element.key ∧ other.keyString.text = element.keyString.text)
    (h.settled index element hindex) hindex (by simp) (fun other hother => by simpa using (of_decide_eq_true hother).1)
  rw [hkey] at hsearch
  rw [getHashMap, hsearch, Option.map_some, hindex]
  rfl

theorem getValue_of_mem (h : map.Sound hash) (hmem : some element ∈ map.elements) :
    map.getValueHashMap (hash element.keyString.text) element.keyString.text = some element.value := by
  rw [getValueHashMap, getHashMap_of_mem h hmem]
  rfl

/-- A string that has no element is not found. -/
theorem getValue_of_not_mem (h : map.Sound hash) {text : Bytes}
    (hnot : ∀ other, some other ∈ map.elements → other.keyString.text ≠ text) :
    map.getValueHashMap (hash text) text = some none := by
  obtain ⟨index, hsearch⟩ := exists_search h.free
    (fun other => other.key = hash text ∧ other.keyString.text = text) (hash text)
  have hslot : map.elements[index]? = some none := by
    cases hget : map.elements[index]? with
    | none => exact absurd (List.getElem?_eq_none_iff.mp hget) (Nat.not_le.mpr (search_some hsearch).1)
    | some slot =>
        cases slot with
        | none => rfl
        | some other =>
            have htext := (of_decide_eq_true ((search_some hsearch).2 other hget)).2
            exact absurd htext (hnot other (List.mem_iff_getElem?.mpr ⟨index, hget⟩))
  rw [getValueHashMap, getHashMap, hsearch, Option.map_some, Option.map_some, hslot]
  rfl

/-- The values held, by the elements of the table. -/
theorem finds_iff (h : map.Sound hash) : map.Finds hash s ↔
    (∀ element, some element ∈ map.elements → s element.keyString.text = element.value) ∧
      ∀ text, (∀ element, some element ∈ map.elements → element.keyString.text ≠ text) → s text = none := by
  constructor
  · intro hfinds
    constructor
    · intro element hmem
      exact (Option.some.inj ((hfinds _).symm.trans (getValue_of_mem h hmem)))
    · intro text hnot
      exact (Option.some.inj ((hfinds text).symm.trans (getValue_of_not_mem h hnot)))
  · rintro ⟨hheld, hnone⟩ text
    by_cases hin : ∃ element, some element ∈ map.elements ∧ element.keyString.text = text
    · obtain ⟨element, hmem, rfl⟩ := hin
      rw [getValue_of_mem h hmem, hheld element hmem]
    · have hnot : ∀ element, some element ∈ map.elements → element.keyString.text ≠ text :=
        fun element hmem heq => hin ⟨element, hmem, heq⟩
      rw [getValue_of_not_mem h hnot, hnone text hnot]

/-- A call keeps what is found right exactly when no value is held for another string of its hash. -/
theorem finds_set_iff (h : map.Sound hash) (hfinds : map.Finds hash s) {call : SetCall} (hsets : map.Sets hash call map') :
    map'.Finds hash (s.set call) ↔ Apart hash s call := by
  obtain ⟨hheld, hnone⟩ := (finds_iff h).mp hfinds
  rw [finds_iff hsets.sound]
  have hold : ∀ {text : Bytes}, text ≠ call.text → s.set call text = s text := fun hne => Function.update_of_ne hne _ _
  have hnew : s.set call call.text = call.value := Function.update_self ..
  constructor
  · rintro ⟨_, hnone'⟩ text hin hhash
    by_contra hne
    apply hin
    rw [← hold hne]
    refine hnone' text fun element hmem htext => ?_
    cases (hsets.mem element).mp hmem with
    | inl heq => exact hne (by rw [← htext, heq]; rfl)
    | inr hother =>
        apply hother.2
        rw [h.keys element hother.1, htext, hhash]
  · intro hapart
    constructor
    · intro element hmem
      cases (hsets.mem element).mp hmem with
      | inl heq =>
          rw [heq]
          exact hnew
      | inr hother =>
          have hne : element.keyString.text ≠ call.text := fun heq =>
            hother.2 (by rw [h.keys element hother.1, heq])
          rw [hold hne, hheld element hother.1]
    · intro text hnot
      have hne : text ≠ call.text := fun heq => hnot _ ((hsets.mem _).mpr (.inl rfl)) heq.symm
      rw [hold hne]
      by_contra hin
      apply hin
      refine hnone text fun element hmem htext => ?_
      have hhash : element.key ≠ hash call.text := fun hkey => by
        rw [h.keys element hmem, htext] at hkey
        exact hne (hapart text hin hkey)
      exact hnot element ((hsets.mem element).mpr (.inr ⟨hmem, hhash⟩)) htext

/-! ## Counting -/

/-- A table that finds what is held, and whose elements are those that a value is held for, all of them counted. -/
structure Exact (hash : Bytes → Nat) (map : HashMap) (s : FiniteMap) : Prop where
  sound : map.Sound hash
  finds : map.Finds hash s
  values : ∀ element, some element ∈ map.elements → element.value ≠ none
  finite : s.held.Finite
  counts : map.size = s.held.ncard
  used : map.elements.reduceOption.length = map.size

theorem Exact.size_set (h : map.Exact hash s) {call : SetCall} (hsets : map.Sets hash call map') :
    map'.size = s.held.ncard + 1 := by
  have hsize := hsets.size
  rw [h.used, h.counts] at hsize
  exact hsize.elim id id

theorem held_set (call : SetCall) : (s.set call).held = {text | text ≠ call.text ∧ text ∈ s.held} ∪
    {text | text = call.text ∧ call.value ≠ none} := by
  ext text
  rcases eq_or_ne text call.text with rfl | hne
  · simp [FiniteMap.held, FiniteMap.set]
  · simp [FiniteMap.held, FiniteMap.set, hne]

/-- A call keeps the size right as well exactly when it sets a value and none is held for a string of its hash. -/
theorem exact_set_iff (h : map.Exact hash s) {call : SetCall} (hsets : map.Sets hash call map') :
    (map'.Finds hash (s.set call) ∧ map'.Counts (s.set call)) ↔ Fresh hash s call := by
  have hsize := h.size_set hsets
  rw [finds_set_iff h.sound h.finds hsets, Counts, hsize, held_set]
  constructor
  · rintro ⟨hapart, hcounts⟩
    have hmore : ¬ ({text | text ≠ call.text ∧ text ∈ s.held} ∪ {text | text = call.text ∧ call.value ≠ none} ⊆ s.held) :=
      fun hsub => by
        have hle := Set.ncard_le_ncard hsub h.finite
        omega
    have hvalue : call.value ≠ none := fun hnull => hmore fun text hin => by
      rcases hin with hin | hin
      · exact hin.2
      · exact absurd hnull hin.2
    refine ⟨hvalue, fun text hin hhash => hmore fun text' hin' => ?_⟩
    rcases hin' with hin' | hin'
    · exact hin'.2
    · have hsame := hapart text hin hhash
      rw [hin'.1, ← hsame]
      exact hin
  · rintro ⟨hvalue, hfresh⟩
    refine ⟨fun text hin hhash => absurd hhash (hfresh text hin), ?_⟩
    have hnot : call.text ∉ s.held := fun hin => hfresh call.text hin rfl
    have hunion : ({text | text ≠ call.text ∧ text ∈ s.held} ∪ {text | text = call.text ∧ call.value ≠ none} : Set Bytes) =
        insert call.text s.held := by
      ext text
      simp only [Set.mem_union, Set.mem_ofPred_eq, Set.mem_insert_iff, hvalue, ne_eq, not_false_eq_true, and_true]
      constructor
      · rintro (hin | heq)
        · exact .inr hin.2
        · exact .inl heq
      · rintro (heq | hin)
        · exact .inr heq
        · exact .inl ⟨fun heq => hnot (heq ▸ hin), hin⟩
    rw [hunion, Set.ncard_insert_of_notMem hnot h.finite]

theorem Exact.set (h : map.Exact hash s) {call : SetCall} (hsets : map.Sets hash call map') (hfresh : Fresh hash s call) :
    map'.Exact hash (s.set call) := by
  obtain ⟨hfinds, hcounts⟩ := (exact_set_iff h hsets).mpr hfresh
  obtain ⟨hheld, _⟩ := (finds_iff h.sound).mp h.finds
  have hnew : ∀ other, some other ∈ map.elements → other.key ≠ hash call.text := fun other hmem hkey => by
    have hin : other.keyString.text ∈ s.held := by
      change s _ ≠ none
      rw [hheld other hmem]
      exact h.values other hmem
    exact hfresh.2 _ hin (by rw [← h.sound.keys other hmem, hkey])
  refine ⟨hsets.sound, hfinds, fun element hmem => ?_, ?_, hcounts, ?_⟩
  · cases (hsets.mem element).mp hmem with
    | inl heq =>
        rw [heq]
        exact hfresh.1
    | inr hother => exact h.values element hother.1
  · rw [held_set]
    exact (h.finite.subset fun text hin => hin.2).union ((Set.finite_singleton call.text).subset fun text hin => hin.1)
  · rw [hsets.used_new hnew, h.used, h.counts, h.size_set hsets]

/-! ## Runs -/

/-- A relation that a table and the values held keep under the calls that meet a condition, and under no others, holds
along the runs whose calls meet it. -/
theorem along_iff (invariant related : HashMap → FiniteMap → Prop) (condition : FiniteMap → SetCall → Prop)
    (hsound : ∀ {map s}, invariant map s → map.Sound hash) (hrelated : ∀ {map s}, invariant map s → related map s)
    (hstep : ∀ {map s call map'}, invariant map s → map.Sets hash call map' →
      (related map' (s.set call) ↔ condition s call))
    (hkept : ∀ {map s call map'}, invariant map s → map.Sets hash call map' → condition s call →
      invariant map' (s.set call)) (calls : List SetCall) (h : invariant map s) :
    map.Along related hash s calls ↔ s.Meets condition calls := by
  induction calls generalizing map s with
  | nil => exact iff_of_true (hrelated h) trivial
  | cons call calls ih =>
      obtain ⟨map', hset, hsets⟩ := set_eq (hsound h) call
      rw [Along, FiniteMap.Meets]
      constructor
      · rintro ⟨_, map'', hset', hrest⟩
        rw [hset, Option.some.injEq] at hset'
        subst hset'
        have hnow : related map' (s.set call) := by
          cases calls with
          | nil => exact hrest
          | cons call' calls => exact hrest.1
        have hcondition := (hstep h hsets).mp hnow
        exact ⟨hcondition, (ih (hkept h hsets hcondition)).mp hrest⟩
      · rintro ⟨hcondition, hrest⟩
        exact ⟨hrelated h, map', hset, (ih (hkept h hsets hcondition)).mpr hrest⟩

theorem finds_create (hash : Bytes → Nat) (initialSize : Nat) : (createHashMap initialSize).Finds hash fun _ => none := by
  refine (finds_iff (sound_create hash initialSize)).mpr ⟨fun element hmem => ?_, fun _ _ => rfl⟩
  simp [createHashMap] at hmem

theorem exact_create (hash : Bytes → Nat) (initialSize : Nat) :
    (createHashMap initialSize).Exact hash fun _ => none where
  sound := sound_create hash initialSize
  finds := finds_create hash initialSize
  values element hmem := by simp [createHashMap] at hmem
  finite := by simp [FiniteMap.held]
  counts := by simp [FiniteMap.held, createHashMap]
  used := by simp [createHashMap, List.reduceOption]

theorem meets_always (s : FiniteMap) (calls : List SetCall) : s.Meets (fun _ _ => True) calls := by
  induction calls generalizing s with
  | nil => trivial
  | cons call calls ih => exact ⟨trivial, ih (s.set call)⟩

theorem along_exact_iff (hash : Bytes → Nat) (initialSize : Nat) (calls : List SetCall) :
    (createHashMap initialSize).Along (fun map s => map.Finds hash s ∧ map.Counts s) hash (fun _ => none) calls ↔
      FiniteMap.Meets (Fresh hash) (fun _ => none) calls :=
  along_iff (fun map s => map.Exact hash s) _ _ Exact.sound (fun h => ⟨h.finds, h.counts⟩)
    (fun h hsets => exact_set_iff h hsets) (fun h hsets hfresh => h.set hsets hfresh) calls (exact_create hash initialSize)

end HashMap

/-- Every run of a hash map comes to its end with places free at all times; every string has the value last set for it
exactly when no value is held for another string of the hash of one that is set, and the size counts the strings as well
exactly when each call sets a value, under a hash that none is held under. -/
theorem hash_map_refines (hash : Bytes → Nat) (initialSize : Nat) (calls : List SetCall) :
    (createHashMap initialSize).Along (fun map _ => none ∈ map.elements) hash (fun _ => none) calls ∧
      ((createHashMap initialSize).Along (HashMap.Finds hash) hash (fun _ => none) calls ↔
        FiniteMap.Meets (Apart hash) (fun _ => none) calls) ∧
      ((createHashMap initialSize).Along (fun map s => map.Finds hash s ∧ map.Counts s) hash (fun _ => none) calls ↔
        FiniteMap.Meets (Fresh hash) (fun _ => none) calls) := by
  refine ⟨?_, ?_, HashMap.along_exact_iff hash initialSize calls⟩
  · apply (HashMap.along_iff (fun map _ => map.Sound hash) _ (fun _ _ => True) id HashMap.Sound.free
      (fun _ hsets => iff_of_true hsets.sound.free trivial) (fun _ hsets _ => hsets.sound) calls
      (HashMap.sound_create hash initialSize)).mpr
    exact HashMap.meets_always _ calls
  · exact HashMap.along_iff (fun map s => map.Sound hash ∧ map.Finds hash s) _ _ And.left And.right
      (fun h hsets => HashMap.finds_set_iff h.1 h.2 hsets)
      (fun h hsets hapart => ⟨hsets.sound, (HashMap.finds_set_iff h.1 h.2 hsets).mpr hapart⟩) calls
      ⟨HashMap.sound_create hash initialSize, HashMap.finds_create hash initialSize⟩

/-- The hash that the string functions set and get under. -/
def stringHash (text : Bytes) : Nat := (calculateString text).toNat

/-- A string that is set twice is counted twice. -/
theorem not_hash_map_refines : ¬ ∀ (initialSize : Nat) (calls : List SetCall), (createHashMap initialSize).Along
    (fun map s => map.Finds stringHash s ∧ map.Counts s) stringHash (fun _ => none) calls := by
  intro h
  have hmeets := (HashMap.along_exact_iff stringHash 0 _).mp
    (h 0 [{ keyString := ⟨1, [97]⟩, value := some 1 }, { keyString := ⟨2, [97]⟩, value := some 2 }])
  have hheld : [97] ∈ (FiniteMap.set (fun _ => none) { keyString := ⟨1, [97]⟩, value := some 1 }).held := by
    simp [FiniteMap.held, FiniteMap.set, SetCall.text]
  exact hmeets.2.1.2 [97] hheld rfl

end Viriatum.Structures
