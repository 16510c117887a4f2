import Mathlib.Data.Finset.Card
import TailLisp.Container.ProbeTable

namespace TailLisp

/-!
Probing as a map.

The search for a key goes from slot to slot without counting its steps.  It is
told here as a relation, so that a search which never ends is simply not
related to any slot.  Everything rests on one property of the table: from the
home slot of each key that is held, the search comes to the slot of that key.
No free slot lies between the two, and no key has two slots, because a search
can stop in one place only.

Storing a value keeps the property, whether it takes a free slot or overwrites
an entry.  Doubling stores the entries again in a table that is large enough
for all of them, so it never doubles a second time on the way.
-/

namespace ProbeTable

variable {Value : Type}

/-! ## The search for a slot -/

/-- The search for a key passes from a slot to another one.  Every slot that it
leaves behind holds some other key. -/
inductive Reaches (slots : Array (Option (Bytes × Value))) (key : Bytes) : Nat -> Nat -> Prop
  | here (index) : Reaches slots key index index
  | next {index ending entry} :
      slots[index]? = some (some entry) ->
      entry.1 ≠ key ->
      Reaches slots key ((index + 1) % slots.size) ending ->
      Reaches slots key index ending

/-- The search for a key stops at a slot that is free or holds the key. -/
def Stops (slots : Array (Option (Bytes × Value))) (key : Bytes) (index : Nat) : Prop :=
  forall entry, slots[index]? = some (some entry) -> entry.1 = key

/-- The search for a key in a table ends at a slot of the table. -/
structure Settles (table : ProbeTable Value) (key : Bytes) (index : Nat) : Prop where
  inside : index < table.capacity
  reaches : Reaches table.slots key (table.home key) index
  stops : Stops table.slots key index

section Search

variable {slots later : Array (Option (Bytes × Value))} {key : Bytes}

theorem Reaches.lt_size {index ending : Nat} (reaches : Reaches slots key index ending)
    (inside : index < slots.size) : ending < slots.size := by
  induction reaches with
  | here => exact inside
  | next _ _ _ inductionHypothesis => exact inductionHypothesis (Nat.mod_lt _ (by omega))

/-- A search stops in one place only. -/
theorem Reaches.unique {index first second : Nat} (toFirst : Reaches slots key index first)
    (toSecond : Reaches slots key index second) (firstStops : Stops slots key first)
    (secondStops : Stops slots key second) : first = second := by
  induction toFirst with
  | here =>
      cases toSecond with
      | here => rfl
      | next held other _ => exact absurd (firstStops _ held) other
  | next held other _ inductionHypothesis =>
      cases toSecond with
      | here => exact absurd (secondStops _ held) other
      | next _ _ rest => exact inductionHypothesis rest firstStops

/-- A search takes the same way as long as slots with other keys keep having
other keys. -/
theorem Reaches.of_kept {index ending : Nat} (reaches : Reaches slots key index ending)
    (sameSize : later.size = slots.size)
    (kept : forall (place : Nat) (entry : Bytes × Value), slots[place]? = some (some entry) ->
      entry.1 ≠ key -> Exists fun changed : Bytes × Value =>
        later[place]? = some (some changed) ∧ changed.1 ≠ key) :
    Reaches later key index ending := by
  induction reaches with
  | here index => exact .here index
  | next held other _ inductionHypothesis =>
      rcases kept _ _ held other with ⟨changed, alsoHeld, stillOther⟩
      refine .next alsoHeld stillOther ?_
      rw [sameSize]
      exact inductionHypothesis

/-- A counted search that finds a slot has passed to it and may stop there. -/
theorem reaches_of_seek {index remaining found : Nat}
    (sought : seek slots key index remaining = some found) :
    Reaches slots key index found ∧ Stops slots key found := by
  fun_induction seek slots key index remaining with
  | case1 => cases sought
  | case2 index remaining entry held same =>
      cases sought
      refine ⟨.here _, fun other alsoHeld => ?_⟩
      rw [held, Option.some.injEq, Option.some.injEq] at alsoHeld
      rw [← alsoHeld, same]
  | case3 index remaining entry held other inductionHypothesis =>
      rcases inductionHypothesis sought with ⟨reaches, stops⟩
      exact ⟨.next held other reaches, stops⟩
  | case4 index remaining notHeld =>
      cases sought
      exact ⟨.here _, fun entry held => absurd held (notHeld entry)⟩

/-- A counted search that finds nothing has met an entry at every step. -/
theorem held_of_seek_eq_none {index remaining : Nat} (inside : index < slots.size)
    (lost : seek slots key index remaining = none) (step : Nat) (counted : step < remaining) :
    Exists fun entry => slots[(index + step) % slots.size]? = some (some entry) := by
  fun_induction seek slots key index remaining generalizing step with
  | case1 => omega
  | case2 => cases lost
  | case3 index remaining entry held other inductionHypothesis =>
      cases step with
      | zero =>
          refine ⟨entry, ?_⟩
          rw [Nat.add_zero, Nat.mod_eq_of_lt inside]
          exact held
      | succ step =>
          have further := inductionHypothesis (Nat.mod_lt _ (by omega)) lost step (by omega)
          rw [Nat.mod_add_mod, Nat.add_assoc, Nat.add_comm 1 step] at further
          exact further
  | case4 => cases lost

/-- Among slots that are not all taken, a search that may see each of them once
finds one to stop at. -/
theorem exists_seek_eq_some {index free : Nat} (inside : index < slots.size)
    (isFree : slots[free]? = some none) :
    Exists fun found => seek slots key index slots.size = some found := by
  cases sought : seek slots key index slots.size with
  | some found => exact ⟨found, rfl⟩
  | none =>
      have inBounds : free < slots.size := (Array.getElem?_eq_some_iff.1 isFree).1
      -- The free slot lies some number of steps ahead, around the end if need be.
      have ahead : (index + (free + slots.size - index) % slots.size) % slots.size = free := by
        rw [Nat.add_mod_mod, ← Nat.add_sub_assoc (by omega), Nat.add_sub_cancel_left,
          Nat.add_mod_right, Nat.mod_eq_of_lt inBounds]
      rcases held_of_seek_eq_none inside sought _ (Nat.mod_lt _ (by omega)) with ⟨entry, held⟩
      rw [ahead, isFree] at held
      cases held

/-- The search for a key ends at one slot only. -/
theorem Settles.unique {table : ProbeTable Value} {first second : Nat}
    (atFirst : table.Settles key first) (atSecond : table.Settles key second) : first = second :=
  atFirst.reaches.unique atSecond.reaches atFirst.stops atSecond.stops

end Search

/-! ## Tables whose keys are found -/

/-- Every entry is counted, and the search for its key comes to it. -/
structure Chained (table : ProbeTable Value) : Prop where
  positive : 0 < table.capacity
  counted : table.entries.length = table.size
  reached : forall {index key value}, table.slots[index]? = some (some (key, value)) ->
    Reaches table.slots key (table.home key) index

theorem mem_entries {table : ProbeTable Value} {entry : Bytes × Value} :
    entry ∈ table.entries ↔ Exists fun index : Nat => table.slots[index]? = some (some entry) := by
  rw [entries, List.mem_filterMap]
  constructor
  · rintro ⟨slot, member, same⟩
    rcases List.mem_iff_getElem?.1 member with ⟨index, held⟩
    exact ⟨index, by rw [← Array.getElem?_toList, held, ← same, id]⟩
  · rintro ⟨index, held⟩
    rw [← Array.getElem?_toList] at held
    exact ⟨some entry, List.mem_of_getElem? held, rfl⟩

theorem length_entries (table : ProbeTable Value) :
    table.entries.length = table.slots.toList.countP Option.isSome :=
  List.length_filterMap_eq_countP

namespace Chained

variable {table : ProbeTable Value}

theorem home_lt (chained : table.Chained) (key : Bytes) : table.home key < table.capacity :=
  Nat.mod_lt _ chained.positive

/-- A table that has fewer entries than slots has a free slot. -/
theorem exists_free (chained : table.Chained) (spare : table.size < table.capacity) :
    Exists fun index : Nat => table.slots[index]? = some none := by
  by_contra allHeld
  have full : table.slots.toList.countP Option.isSome = table.slots.toList.length := by
    rw [List.countP_eq_length]
    intro slot member
    rcases List.mem_iff_getElem?.1 member with ⟨index, found⟩
    cases slot with
    | some entry => rfl
    | none => exact (allHeld ⟨index, by rw [← Array.getElem?_toList, found]⟩).elim
  rw [← length_entries, chained.counted, Array.length_toList] at full
  exact Nat.ne_of_lt spare full

/-- Where the counted search finds a slot, the search ends. -/
theorem settles_of_locate (chained : table.Chained) {key : Bytes} {index : Nat}
    (found : table.locate key = some index) : table.Settles key index := by
  rcases reaches_of_seek found with ⟨reaches, stops⟩
  exact ⟨reaches.lt_size (chained.home_lt key), reaches, stops⟩

/-- If there is room for one more entry, the search for any key comes to an end. -/
theorem exists_locate (chained : table.Chained) (spare : table.size < table.capacity)
    (key : Bytes) : Exists fun index => table.locate key = some index := by
  rcases chained.exists_free spare with ⟨free, isFree⟩
  exact exists_seek_eq_some (chained.home_lt key) isFree

/-- An entry is where the search for its key ends. -/
theorem settles (chained : table.Chained) {index : Nat} {key : Bytes} {value : Value}
    (held : table.slots[index]? = some (some (key, value))) : table.Settles key index := by
  refine ⟨(Array.getElem?_eq_some_iff.1 held).1, chained.reached held, fun entry alsoHeld => ?_⟩
  rw [held, Option.some.injEq, Option.some.injEq] at alsoHeld
  rw [← alsoHeld]

/-- No key has two slots. -/
theorem index_unique (chained : table.Chained) {first second : Nat} {key : Bytes}
    {value other : Value} (atFirst : table.slots[first]? = some (some (key, value)))
    (atSecond : table.slots[second]? = some (some (key, other))) : first = second :=
  (chained.settles atFirst).unique (chained.settles atSecond)

theorem value_unique (chained : table.Chained) {key : Bytes} {value other : Value}
    (first : (key, value) ∈ table.entries) (second : (key, other) ∈ table.entries) :
    value = other := by
  rcases mem_entries.1 first with ⟨index, atFirst⟩
  rcases mem_entries.1 second with ⟨place, atSecond⟩
  rw [chained.index_unique atFirst atSecond, atSecond] at atFirst
  cases atFirst
  rfl

theorem nodup_keys (chained : table.Chained) : (table.entries.map Prod.fst).Nodup := by
  rw [List.Nodup, List.pairwise_map, entries, List.pairwise_filterMap, List.pairwise_iff_getElem]
  intro first second inFirst inSecond before entry atFirst other atSecond same
  rw [id, Array.getElem_toList] at atFirst atSecond
  have heldFirst : table.slots[first]? = some (some (entry.1, entry.2)) :=
    Array.getElem?_eq_some_iff.2 ⟨inFirst, atFirst⟩
  have heldSecond : table.slots[second]? = some (some (entry.1, other.2)) := by
    rw [same]
    exact Array.getElem?_eq_some_iff.2 ⟨inSecond, atSecond⟩
  exact Nat.ne_of_lt before (chained.index_unique heldFirst heldSecond)

/-- A look-up finds exactly the entries. -/
theorem find?_eq_some_iff (chained : table.Chained) (spare : table.size < table.capacity)
    {key : Bytes} {value : Value} :
    table.find? key = some value ↔ (key, value) ∈ table.entries := by
  rcases chained.exists_locate spare key with ⟨index, found⟩
  have settles := chained.settles_of_locate found
  have looked : table.find? key = some value ↔
      table.slots[index]? = some (some (key, value)) := by
    simp only [find?, found]
    cases held : table.slots[index]? with
    | none => simp
    | some slot =>
        cases slot with
        | none => simp
        | some entry =>
            have same := settles.stops entry held
            simp [Prod.ext_iff, same]
  rw [looked, mem_entries]
  constructor
  · intro held
    exact ⟨index, held⟩
  · rintro ⟨place, held⟩
    rw [← (chained.settles held).unique settles]
    exact held

end Chained

/-- A table of free slots has no entries. -/
theorem entries_withCapacity (capacity : Nat) :
    (withCapacity capacity : ProbeTable Value).entries = [] := by
  rw [entries, withCapacity, Array.toList_replicate, List.filterMap_replicate_of_none rfl]

theorem chained_withCapacity {capacity : Nat} (positive : 0 < capacity) :
    (withCapacity capacity : ProbeTable Value).Chained where
  positive := by
    rw [ProbeTable.capacity, withCapacity, Array.size_replicate]
    exact positive
  counted := by
    rw [entries_withCapacity]
    rfl
  reached := by
    intro index key value held
    have member := mem_entries.2 ⟨index, held⟩
    rw [entries_withCapacity] at member
    cases member

/-! ## Storing a value -/

@[simp] theorem capacity_place (table : ProbeTable Value) (key : Bytes) (value : Value) :
    (table.place key value).capacity = table.capacity := by
  unfold place
  split
  · rfl
  · exact Array.size_setIfInBounds

@[simp] theorem home_place (table : ProbeTable Value) (key : Bytes) (value : Value)
    (other : Bytes) : (table.place key value).home other = table.home other := by
  rw [home, home, capacity_place]

theorem size_place_le (table : ProbeTable Value) (key : Bytes) (value : Value) :
    (table.place key value).size <= table.size + 1 := by
  unfold place
  split
  · exact Nat.le_succ _
  · dsimp only
    split <;> omega

/-- What storing a value at the slot of its key does to the slots. -/
theorem slots_place {table : ProbeTable Value} {key : Bytes} {index : Nat}
    (found : table.locate key = some index) (value : Value) :
    (table.place key value).slots = table.slots.setIfInBounds index (some (key, value)) := by
  rw [place, found]

theorem slots_place_of_ne {table : ProbeTable Value} {key : Bytes} {index other : Nat}
    (found : table.locate key = some index) (different : other ≠ index) (value : Value) :
    (table.place key value).slots[other]? = table.slots[other]? := by
  rw [slots_place found, Array.getElem?_setIfInBounds, if_neg (Ne.symm different)]

namespace Chained

variable {table : ProbeTable Value} (chained : table.Chained) {key : Bytes} {index : Nat}
  (found : table.locate key = some index) (value : Value)

include chained found

theorem slots_place_self : (table.place key value).slots[index]? = some (some (key, value)) := by
  rw [slots_place found, Array.getElem?_setIfInBounds, if_pos rfl]
  exact if_pos (chained.settles_of_locate found).inside

/-- A slot that is taken stays with its key. -/
theorem key_kept {other : Nat} {entry : Bytes × Value}
    (held : table.slots[other]? = some (some entry)) :
    Exists fun changed : Bytes × Value =>
      (table.place key value).slots[other]? = some (some changed) ∧ changed.1 = entry.1 := by
  by_cases same : other = index
  · subst same
    have sameKey := (chained.settles_of_locate found).stops entry held
    exact ⟨(key, value), chained.slots_place_self found value, sameKey.symm⟩
  · exact ⟨entry, (slots_place_of_ne found same value).trans held, rfl⟩

/-- The search for any key takes the way that it took before. -/
theorem reaches_place {other : Bytes} {start ending : Nat}
    (reaches : Reaches table.slots other start ending) :
    Reaches (table.place key value).slots other start ending := by
  refine reaches.of_kept (capacity_place table key value) fun place entry held different => ?_
  rcases chained.key_kept found value held with ⟨changed, alsoHeld, sameKey⟩
  exact ⟨changed, alsoHeld, sameKey ▸ different⟩

theorem length_entries_place :
    (table.place key value).entries.length = (table.place key value).size := by
  have inside : index < table.slots.toList.length := (chained.settles_of_locate found).inside
  have counted := chained.counted
  rw [length_entries] at counted
  rw [length_entries, slots_place found, Array.toList_setIfInBounds, List.countP_set inside,
    counted, Array.getElem_toList]
  have held : table.slots[index]? = some table.slots[index] := Array.getElem?_eq_getElem inside
  simp only [ProbeTable.place, found, held]
  cases slot : table.slots[index] with
  | none => rfl
  | some entry =>
      -- An entry that is overwritten is counted already.
      have positive : 0 < table.slots.toList.countP Option.isSome :=
        List.countP_pos_iff.2 ⟨some entry, slot ▸ Array.getElem_mem_toList inside, rfl⟩
      simp only [Option.isSome_some, if_true]
      omega

theorem place : (table.place key value).Chained where
  positive := by
    rw [capacity_place]
    exact chained.positive
  counted := chained.length_entries_place found value
  reached := by
    intro other otherKey otherValue held
    rw [home_place]
    by_cases same : other = index
    · subst same
      rw [chained.slots_place_self found value] at held
      cases held
      exact chained.reaches_place found value (chained.settles_of_locate found).reaches
    · rw [slots_place_of_ne found same value] at held
      exact chained.reaches_place found value (chained.reached held)

/-- The entries afterwards are the new one and those of other keys. -/
theorem mem_entries_place {entry : Bytes × Value} :
    entry ∈ (table.place key value).entries ↔
      entry = (key, value) ∨ entry.1 ≠ key ∧ entry ∈ table.entries := by
  have settles := chained.settles_of_locate found
  rw [mem_entries, mem_entries]
  constructor
  · rintro ⟨place, held⟩
    by_cases same : place = index
    · subst same
      rw [chained.slots_place_self found value] at held
      cases held
      exact .inl rfl
    · rw [slots_place_of_ne found same value] at held
      refine .inr ⟨fun sameKey => ?_, place, held⟩
      subst sameKey
      exact same ((chained.settles held).unique settles)
  · rintro (same | ⟨different, place, held⟩)
    · exact ⟨index, same ▸ chained.slots_place_self found value⟩
    · have elsewhere : place ≠ index := by
        intro same
        subst same
        exact different (settles.stops entry held)
      exact ⟨place, (slots_place_of_ne found elsewhere value).trans held⟩

end Chained

/-! ## What a row of insertions leaves -/

/-- The keys of the table are found, and their values are the last ones of a
row of insertions. -/
structure Records (table : ProbeTable Value) (inserted : List (Bytes × Value)) : Prop where
  chained : table.Chained
  latest : forall key value,
    (key, value) ∈ table.entries ↔ inserted.reverse.lookup key = some value

theorem records_withCapacity {capacity : Nat} (positive : 0 < capacity) :
    (withCapacity capacity : ProbeTable Value).Records [] where
  chained := chained_withCapacity positive
  latest := by
    intro key value
    rw [entries_withCapacity]
    simp

namespace Records

variable {table : ProbeTable Value} {inserted : List (Bytes × Value)}

/-- The insertions after one more are recorded once its value is stored. -/
theorem place (records : table.Records inserted) (spare : table.size < table.capacity)
    (key : Bytes) (value : Value) :
    (table.place key value).Records (inserted ++ [(key, value)]) := by
  rcases records.chained.exists_locate spare key with ⟨index, found⟩
  refine ⟨records.chained.place found value, fun other latest => ?_⟩
  rw [records.chained.mem_entries_place found value, records.latest, List.reverse_append,
    List.reverse_singleton, List.singleton_append, List.lookup_cons, Prod.mk.injEq]
  by_cases same : other = key
  · simp [same, eq_comm]
  · simp [same, beq_false_of_ne same]

/-- The keys of the entries are the keys that were inserted. -/
theorem mem_keys (records : table.Records inserted) {key : Bytes} :
    key ∈ table.entries.map Prod.fst ↔ key ∈ inserted.map Prod.fst := by
  have found : (Exists fun value => inserted.reverse.lookup key = some value) ↔
      key ∈ inserted.map Prod.fst := by
    rw [← Option.isSome_iff_exists, List.lookup_isSome_iff, List.mem_map]
    simp only [List.mem_reverse, beq_iff_eq, @eq_comm _ key]
  rw [← found, List.mem_map]
  constructor
  · rintro ⟨⟨label, value⟩, member, same⟩
    subst same
    exact ⟨value, (records.latest label value).1 member⟩
  · rintro ⟨value, latest⟩
    exact ⟨(key, value), (records.latest key value).2 latest, rfl⟩

/-- The table counts the distinct keys. -/
theorem size_eq (records : table.Records inserted) :
    table.size = (inserted.map Prod.fst).toFinset.card := by
  have sameKeys : (table.entries.map Prod.fst).toFinset = (inserted.map Prod.fst).toFinset := by
    ext key
    rw [List.mem_toFinset, List.mem_toFinset, records.mem_keys]
  rw [← sameKeys, List.toFinset_card_of_nodup records.chained.nodup_keys, List.length_map,
    records.chained.counted]

end Records

/-! ## Insertion with growth -/

/-- The threshold leaves at least one slot free. -/
theorem threshold_lt_capacity {table : ProbeTable Value} (positive : 0 < table.capacity) :
    table.threshold < table.capacity := by
  rw [threshold]
  omega

/-- The table in which an insertion searches: twice as large if it was full to
its threshold. -/
def roomy (table : ProbeTable Value) : ProbeTable Value :=
  if table.threshold <= table.size then table.double else table

theorem insert_eq_place (table : ProbeTable Value) (key : Bytes) (value : Value) :
    table.insert key value = table.roomy.place key value :=
  rfl

/-- Inserts values in turn. -/
def insertAll (table : ProbeTable Value) (inserted : List (Bytes × Value)) : ProbeTable Value :=
  inserted.foldl (fun table entry => table.insert entry.1 entry.2) table

theorem insertAll_concat (table : ProbeTable Value) (inserted : List (Bytes × Value))
    (entry : Bytes × Value) :
    table.insertAll (inserted ++ [entry]) = (table.insertAll inserted).insert entry.1 entry.2 :=
  List.foldl_concat ..

/-- Below the threshold of an empty table, values are stored one after another
in the slots that are there. -/
theorem storing_all {capacity : Nat} (positive : 0 < capacity) (inserted : List (Bytes × Value))
    (fits : inserted.length <= 3 * capacity / 4) :
    let stored := inserted.foldl (fun table entry => table.place entry.1 entry.2)
      (withCapacity capacity)
    stored.Records inserted ∧ stored.capacity = capacity ∧ stored.size <= inserted.length ∧
      (withCapacity capacity).insertAll inserted = stored := by
  induction inserted using List.reverseRecOn with
  | nil =>
      exact ⟨records_withCapacity positive, Array.size_replicate, Nat.le_refl _, rfl⟩
  | append_singleton inserted entry inductionHypothesis =>
      rw [List.length_append, List.length_singleton] at fits
      rcases inductionHypothesis (by omega) with ⟨records, sameCapacity, small, sameTable⟩
      rw [List.foldl_concat]
      generalize inserted.foldl (fun table entry => table.place entry.1 entry.2)
        (withCapacity capacity) = stored at *
      have below : stored.size < stored.threshold := by
        rw [threshold, sameCapacity]
        omega
      have spare : stored.size < stored.capacity := by
        rw [sameCapacity]
        omega
      have grew := size_place_le stored entry.1 entry.2
      refine ⟨records.place spare entry.1 entry.2, ?_, ?_, ?_⟩
      · rw [capacity_place, sameCapacity]
      · rw [List.length_append, List.length_singleton]
        omega
      · rw [insertAll_concat, sameTable, insert_eq_place, roomy, if_neg (Nat.not_le.2 below)]

/-- A list without contradictions is a map: a value is found for a key if the
pair is in the list. -/
theorem lookup_eq_some_iff_mem {pairs : List (Bytes × Value)}
    (consistent : forall key value other, (key, value) ∈ pairs -> (key, other) ∈ pairs ->
      value = other) {key : Bytes} {value : Value} :
    pairs.lookup key = some value ↔ (key, value) ∈ pairs := by
  constructor
  · intro found
    rcases List.lookup_eq_some_iff.1 found with ⟨before, after, whole, _⟩
    rw [whole]
    simp
  · intro member
    have isSome : (pairs.lookup key).isSome = true :=
      List.lookup_isSome_iff.2 ⟨(key, value), member, beq_self_eq_true key⟩
    rcases Option.isSome_iff_exists.1 isSome with ⟨other, found⟩
    rcases List.lookup_eq_some_iff.1 found with ⟨before, after, whole, _⟩
    have alsoMember : (key, other) ∈ pairs := by
      rw [whole]
      simp
    rw [found, consistent key other value alsoMember member]

namespace Records

variable {table : ProbeTable Value} {inserted : List (Bytes × Value)}

theorem find?_eq (records : table.Records inserted) (spare : table.size < table.capacity)
    (key : Bytes) : table.find? key = inserted.reverse.lookup key := by
  ext value
  rw [records.chained.find?_eq_some_iff spare, records.latest]

theorem contains_iff (records : table.Records inserted) (spare : table.size < table.capacity)
    (key : Bytes) : table.contains key = true ↔ key ∈ inserted.map Prod.fst := by
  rw [contains, Option.isSome_iff_exists, ← records.mem_keys, List.mem_map]
  constructor
  · rintro ⟨value, found⟩
    exact ⟨(key, value), (records.chained.find?_eq_some_iff spare).1 found, rfl⟩
  · rintro ⟨⟨label, value⟩, member, same⟩
    subst same
    exact ⟨value, (records.chained.find?_eq_some_iff spare).2 member⟩

/-- A table that is not fuller than its threshold is doubled by inserting its
entries again, and there is room for all of them. -/
theorem double_stores (records : table.Records inserted) (light : table.size <= table.threshold) :
    table.double.Records table.entries ∧ table.double.capacity = 2 * table.capacity ∧
      table.double = (withCapacity (2 * table.capacity)).insertAll table.entries := by
  have positive := records.chained.positive
  rw [threshold, ← records.chained.counted] at light
  have stored := storing_all (by omega : 0 < 2 * table.capacity) table.entries (by omega)
  exact ⟨stored.1, stored.2.1, stored.2.2.2.symm⟩

/-- Doubling keeps what is recorded. -/
theorem double (records : table.Records inserted) (light : table.size <= table.threshold) :
    table.double.Records inserted := by
  have stored := (records.double_stores light).1
  refine ⟨stored.chained, fun key value => ?_⟩
  have consistent : forall key value other, (key, value) ∈ table.entries.reverse ->
      (key, other) ∈ table.entries.reverse -> value = other := by
    intro key value other first second
    rw [List.mem_reverse] at first second
    exact records.chained.value_unique first second
  calc (key, value) ∈ table.double.entries
      ↔ table.entries.reverse.lookup key = some value := stored.latest key value
    _ ↔ (key, value) ∈ table.entries.reverse := lookup_eq_some_iff_mem consistent
    _ ↔ (key, value) ∈ table.entries := List.mem_reverse
    _ ↔ inserted.reverse.lookup key = some value := records.latest key value

/-- An insertion searches in a table with the same record and room for one more
entry below its threshold. -/
theorem roomy (records : table.Records inserted) (light : table.size <= table.threshold) :
    table.roomy.Records inserted ∧ table.roomy.size < table.roomy.threshold := by
  rw [ProbeTable.roomy]
  split
  · have doubled := records.double light
    refine ⟨doubled, ?_⟩
    have positive := records.chained.positive
    rw [doubled.size_eq, ← records.size_eq, threshold, (records.double_stores light).2.1]
    rw [threshold] at light
    omega
  · next below => exact ⟨records, Nat.not_le.1 below⟩

end Records

/-- After any row of insertions the table records them, and it is not fuller
than its threshold. -/
theorem records_insertAll {capacity : Nat} (positive : 0 < capacity)
    (inserted : List (Bytes × Value)) :
    let table := (withCapacity capacity).insertAll inserted
    table.Records inserted ∧ table.size <= table.threshold := by
  induction inserted using List.reverseRecOn with
  | nil => exact ⟨records_withCapacity positive, Nat.zero_le _⟩
  | append_singleton inserted entry inductionHypothesis =>
      rcases inductionHypothesis with ⟨records, light⟩
      rcases records.roomy light with ⟨ready, below⟩
      have spare := Nat.lt_trans below (threshold_lt_capacity ready.chained.positive)
      have grew := size_place_le ((withCapacity capacity).insertAll inserted).roomy entry.1 entry.2
      rw [insertAll_concat, insert_eq_place]
      refine ⟨ready.place spare entry.1 entry.2, ?_⟩
      rw [threshold, capacity_place, ← threshold]
      omega

theorem find?_insertAll {capacity : Nat} (positive : 0 < capacity)
    (inserted : List (Bytes × Value)) (key : Bytes) :
    ((withCapacity capacity).insertAll inserted).find? key = inserted.reverse.lookup key := by
  rcases records_insertAll positive inserted with ⟨records, light⟩
  exact records.find?_eq
    (Nat.lt_of_le_of_lt light (threshold_lt_capacity records.chained.positive)) key

/-- A probing table is a finite map.  After any row of insertions a look-up
gives the value that was inserted last under its key, and nothing for any other
key; the size is the number of distinct keys, and some slot is free.  Whatever
is inserted next, the search for its slot ends, and the slot holds the value
afterwards.  That also goes for the searches while the table is doubled: they
are those of inserting the entries into a new table. -/
theorem insertAll_is_map {capacity : Nat} (positive : 0 < capacity)
    (inserted : List (Bytes × Value)) :
    let table := (withCapacity capacity).insertAll inserted
    (forall key, table.find? key = inserted.reverse.lookup key) ∧
    (forall key, table.contains key = (table.find? key).isSome ∧
      (table.contains key = true ↔ key ∈ inserted.map Prod.fst)) ∧
    table.size = (inserted.map Prod.fst).toFinset.card ∧
    table.size < table.capacity ∧
    table.double = (withCapacity (2 * table.capacity)).insertAll table.entries ∧
    forall key value, Exists fun index => table.roomy.Settles key index ∧
      (table.insert key value).slots[index]? = some (some (key, value)) := by
  intro table
  rcases records_insertAll positive inserted with ⟨records, light⟩
  have spare := Nat.lt_of_le_of_lt light (threshold_lt_capacity records.chained.positive)
  refine ⟨find?_insertAll positive inserted, fun key => ⟨rfl, records.contains_iff spare key⟩,
    records.size_eq, spare, (records.double_stores light).2.2, ?_⟩
  intro key value
  rcases records.roomy light with ⟨ready, below⟩
  have room := Nat.lt_trans below (threshold_lt_capacity ready.chained.positive)
  rcases ready.chained.exists_locate room key with ⟨index, found⟩
  exact ⟨index, ready.chained.settles_of_locate found, ready.chained.slots_place_self found value⟩

/-- Three keys that share their home slot, the last one of four, in a table that
began with a single slot.  The second key goes around the end, and the third
stands behind it. -/
theorem insertAll_is_map_wrapped :
    let inserted : List (Bytes × Nat) :=
      [(Bytes.ofText "d", 1), (Bytes.ofText "h", 2), (Bytes.ofText "d", 3)]
    let table := (withCapacity 1).insertAll inserted
    table.find? (Bytes.ofText "d") = some 3 ∧ table.find? (Bytes.ofText "h") = some 2 ∧
      table.contains (Bytes.ofText "l") = false ∧ table.size = 2 ∧ table.capacity = 4 ∧
        table.size < table.capacity ∧
          Exists fun index => table.roomy.Settles (Bytes.ofText "l") index ∧
            (table.insert (Bytes.ofText "l") 4).slots[index]? =
              some (some (Bytes.ofText "l", 4)) := by
  intro inserted table
  have isMap := insertAll_is_map (Nat.one_pos) inserted
  refine ⟨isMap.1 _, isMap.1 _, ?_, isMap.2.2.1, by decide +kernel, isMap.2.2.2.1,
    isMap.2.2.2.2.2 _ _⟩
  rw [(isMap.2.1 _).1, isMap.1]
  rfl

end ProbeTable

end TailLisp
