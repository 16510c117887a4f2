import Mathlib.Algebra.Group.Nat.Defs
import TailLisp.Container.WordTable
import TailLisp.Proofs.Probing

namespace TailLisp

/-!
Probing in machine words.

A word table shows a probing table as long as their counters agree.  From there
on both do the same: a search that may see every slot once finds the slot that
the uncounted one finds, and the entries of a table that is doubled go in one
after another without doubling it again, so the calls are not nested any deeper.
This ends at the largest capacity that a word can hold.  A table of that capacity that
is full to its threshold breaks down at the next insertion.
-/

namespace WordTable

variable {Value : Type}

/-! ## Outcomes -/

@[simp] theorem pure_bind_attempt {First Second : Type} (value : First)
    (next : First -> Attempt Second) : (pure value : Attempt First) >>= next = next value :=
  rfl

/-- The counters of a word table are those of a probing table. -/
structure Shows (words : WordTable Value) (table : ProbeTable Value) : Prop where
  capacity : words.capacity.toNat = table.capacity
  threshold : words.threshold.toNat = table.threshold
  size : words.size.toNat = table.size
  slots : words.slots = table.slots

theorem shows_withCapacity (capacity : UInt32) :
    (withCapacity capacity : WordTable Value).Shows (.withCapacity capacity.toNat) where
  capacity := (Array.size_replicate).symm
  threshold := by
    have small := capacity.toNat_lt
    rw [withCapacity, ProbeTable.threshold, ProbeTable.capacity, ProbeTable.withCapacity,
      Array.size_replicate, UInt32.toNat_ofNat']
    exact Nat.mod_eq_of_lt (by omega)
  size := rfl
  slots := rfl

namespace Shows

variable {words : WordTable Value} {table : ProbeTable Value} (shown : words.Shows table)

include shown

theorem entries_eq : words.entries = table.entries := by
  rw [entries, ProbeTable.entries, shown.slots]

/-! ## The search for a slot -/

theorem wrap_eq (positive : 0 < table.capacity) (number : UInt32) :
    words.wrap number = pure (number % words.capacity) := by
  apply if_neg
  intro zero
  rw [← shown.capacity, zero] at positive
  exact Nat.lt_irrefl _ positive

theorem toNat_mod (number : UInt32) :
    (number % words.capacity).toNat = number.toNat % table.capacity := by
  rw [UInt32.toNat_mod, shown.capacity]

/-- The step to the next slot stays within a word. -/
theorem toNat_next {index : UInt32} (inside : index.toNat < table.capacity) :
    ((index + 1) % words.capacity).toNat = (index.toNat + 1) % table.capacity := by
  have small := words.capacity.toNat_lt
  rw [shown.capacity] at small
  have held : (index.toNat + 1) % 2 ^ 32 = index.toNat + 1 := Nat.mod_eq_of_lt (by omega)
  rw [shown.toNat_mod, UInt32.toNat_add, UInt32.toNat_one, held]

/-- Where the search for numbers finds a slot, the search for words ends at the same
one. -/
theorem probe_eq {key : Bytes} {remaining found : Nat} {index : UInt32}
    (inside : index.toNat < table.capacity)
    (sought : ProbeTable.seek table.slots key index.toNat remaining = some found) :
    Exists fun place : UInt32 =>
      words.probe key remaining index = pure place ∧ place.toNat = found := by
  induction remaining generalizing index with
  | zero => cases sought
  | succ remaining inductionHypothesis =>
      rw [probe, shown.slots]
      rw [ProbeTable.seek] at sought
      rcases slot : table.slots[index.toNat]? with _ | _ | entry
      · simp only [slot] at sought ⊢
        cases sought
        exact ⟨index, rfl, rfl⟩
      · simp only [slot] at sought ⊢
        cases sought
        exact ⟨index, rfl, rfl⟩
      · simp only [slot] at sought ⊢
        by_cases same : entry.1 = key
        · rw [if_pos same] at sought ⊢
          cases sought
          exact ⟨index, rfl, rfl⟩
        · have next := shown.toNat_next inside
          have stillInside : ((index + 1) % words.capacity).toNat < table.capacity := by
            rw [next]
            exact Nat.mod_lt _ (by omega)
          rw [if_neg same] at sought ⊢
          rw [shown.wrap_eq (by omega), pure_bind_attempt]
          apply inductionHypothesis stillInside
          rw [next]
          exact sought

/-- A look-up finds what the probing table has. -/
theorem find?_eq (positive : 0 < table.capacity) (key : Bytes) :
    words.find? key = pure (table.find? key) := by
  rw [find?, shown.wrap_eq positive, pure_bind_attempt, shown.toNat_mod, shown.capacity,
    shown.slots, ProbeTable.find?, ProbeTable.locate, ProbeTable.home]
  cases ProbeTable.seek table.slots key (key.fingerprint.toNat % table.capacity)
    table.capacity with
  | none => rfl
  | some index => rcases slot : table.slots[index]? with _ | _ | entry <;> simp only [slot]

/-! ## Storing a value -/

/-- In a table with room both store the value in the same slot. -/
theorem place_eq (chained : table.Chained) (spare : table.size < table.capacity) (key : Bytes)
    (value : Value) :
    Exists fun after => words.place key value = pure after ∧
      after.Shows (table.place key value) := by
  rcases chained.exists_locate spare key with ⟨found, located⟩
  have inside : (key.fingerprint % words.capacity).toNat < table.capacity := by
    rw [shown.toNat_mod]
    exact chained.home_lt key
  have sought : ProbeTable.seek table.slots key (key.fingerprint % words.capacity).toNat
      words.capacity.toNat = some found := by
    rw [shown.toNat_mod, shown.capacity]
    exact located
  rcases shown.probe_eq inside sought with ⟨index, probed, sameIndex⟩
  have room := shown.capacity ▸ words.capacity.toNat_lt
  have counted : (table.size + 1) % 2 ^ 32 = table.size + 1 := Nat.mod_eq_of_lt (by omega)
  refine ⟨_, by rw [place, shown.wrap_eq chained.positive, pure_bind_attempt, probed,
    pure_bind_attempt], ?_, ?_, ?_, ?_⟩
  · rw [ProbeTable.capacity_place]
    exact shown.capacity
  · rw [ProbeTable.threshold, ProbeTable.capacity_place]
    exact shown.threshold
  · rw [ProbeTable.place, located, UInt32.toNat_add, shown.size, shown.slots, sameIndex]
    rcases slot : table.slots[found]? with _ | _ | entry <;> simp only [slot]
    · exact counted
    · exact counted
    · exact Nat.mod_eq_of_lt (Nat.lt_trans spare room)
  · rw [ProbeTable.slots_place located, ← shown.slots, ← sameIndex]

end Shows

/-! ## Insertion with growth -/

theorem insertWithin_of_lt {words : WordTable Value} (below : words.size < words.threshold)
    (key : Bytes) (value : Value) (depth : Nat) :
    words.insertWithin key value (depth + 1) = words.place key value := by
  rw [insertWithin, if_neg (UInt32.not_le.2 below)]
  rfl

theorem insertWithin_of_le {words : WordTable Value} (full : words.threshold <= words.size)
    (key : Bytes) (value : Value) (depth : Nat) :
    words.insertWithin key value (depth + 1) =
      words.doubleWithin depth >>= fun roomy => roomy.place key value := by
  rw [insertWithin, if_pos full]

/-- Below the threshold of an empty table the entries go in one after another, and
none of the insertions doubles the table. -/
theorem storing_eq {capacity : UInt32} (positive : 0 < capacity.toNat)
    (inserted : List (Bytes × Value)) (fits : inserted.length <= 3 * capacity.toNat / 4)
    (depth : Nat) :
    Exists fun after : WordTable Value =>
      inserted.foldlM (fun words entry => words.insertWithin entry.1 entry.2 (depth + 1))
        (withCapacity capacity : WordTable Value) = (pure after : Attempt (WordTable Value)) ∧
      after.Shows (inserted.foldl (fun table entry => table.place entry.1 entry.2)
        (.withCapacity capacity.toNat)) := by
  induction inserted using List.reverseRecOn with
  | nil => exact ⟨_, rfl, shows_withCapacity capacity⟩
  | append_singleton inserted entry inductionHypothesis =>
      rw [List.length_append, List.length_singleton] at fits
      rcases inductionHypothesis (by omega) with ⟨before, stored, shown⟩
      rcases ProbeTable.storing_all positive inserted (by omega) with
        ⟨records, sameCapacity, small, _⟩
      rw [List.foldlM_append, stored, pure_bind_attempt, List.foldlM_cons, List.foldl_concat]
      generalize inserted.foldl (fun table entry => table.place entry.1 entry.2)
        (ProbeTable.withCapacity capacity.toNat) = table at *
      have below : before.size < before.threshold := by
        rw [UInt32.lt_iff_toNat_lt, shown.size, shown.threshold, ProbeTable.threshold,
          sameCapacity]
        omega
      rcases shown.place_eq records.chained (by omega) entry.1 entry.2 with
        ⟨after, placed, stillShown⟩
      refine ⟨after, ?_, stillShown⟩
      rw [insertWithin_of_lt below, placed]
      rfl

/-- A new table without slots breaks down at its first insertion. -/
theorem insertWithin_withCapacity_zero (key : Bytes) (value : Value) (depth : Nat) :
    (withCapacity 0 : WordTable Value).insertWithin key value (depth + 2) =
      throw .divisionByZero := by
  have empty : (withCapacity 0 : WordTable Value).doubleWithin (depth + 1) =
      pure (withCapacity 0) := by
    rw [doubleWithin]
    rfl
  rw [insertWithin_of_le (UInt32.le_refl 0), empty]
  rfl

namespace Shows

variable {words : WordTable Value} {table : ProbeTable Value} {inserted : List (Bytes × Value)}
  (shown : words.Shows table) (records : table.Records inserted)
  (light : table.size <= table.threshold)

include shown records light

/-- A table whose doubled capacity fits into a word is doubled. -/
theorem doubleWithin_eq (fits : 2 * table.capacity < 2 ^ 32) (depth : Nat) :
    Exists fun after => words.doubleWithin (depth + 2) = pure after ∧
      after.Shows table.double := by
  have doubled : (2 * words.capacity).toNat = 2 * table.capacity := by
    rw [UInt32.toNat_mul, shown.capacity]
    exact Nat.mod_eq_of_lt fits
  have positive := records.chained.positive
  rw [ProbeTable.threshold, ← records.chained.counted] at light
  have room : 0 < (2 * words.capacity).toNat := by omega
  rcases storing_eq room table.entries (by rw [doubled]; omega) depth with ⟨after, stored, shows⟩
  refine ⟨after, ?_, ?_⟩
  · rw [doubleWithin, shown.entries_eq]
    exact stored
  · rw [doubled] at shows
    exact shows

/-- An insertion does what it does to the probing table unless the table has to be
doubled and cannot be. -/
theorem insert_eq (fits : table.size < table.threshold ∨ 2 * table.capacity < 2 ^ 32)
    (key : Bytes) (value : Value) :
    Exists fun after => words.insert key value = pure after ∧
      after.Shows (table.insert key value) := by
  rcases records.roomy light with ⟨ready, below⟩
  have spare := Nat.lt_trans below (ProbeTable.threshold_lt_capacity ready.chained.positive)
  rw [ProbeTable.insert_eq_place, insert, nesting]
  rcases Nat.lt_or_ge table.size table.threshold with small | full
  · have same : table.roomy = table := if_neg (Nat.not_le.2 small)
    rw [same] at ready spare ⊢
    have room : words.size < words.threshold := by
      rw [UInt32.lt_iff_toNat_lt, shown.size, shown.threshold]
      exact small
    rw [insertWithin_of_lt room]
    exact shown.place_eq ready.chained spare key value
  · have same : table.roomy = table.double := if_pos full
    rw [same] at ready spare ⊢
    rcases shown.doubleWithin_eq records light (fits.resolve_left (Nat.not_lt.2 full)) 1 with
      ⟨roomy, doubled, shows⟩
    have noRoom : words.threshold <= words.size := by
      rw [UInt32.le_iff_toNat_le, shown.size, shown.threshold]
      exact full
    rw [insertWithin_of_le noRoom, doubled, pure_bind_attempt]
    exact shows.place_eq ready.chained spare key value

omit records light in
/-- At half of all the numbers of a word the capacity wraps around to zero, and the
insertion that wants to double the table divides by it. -/
theorem insert_of_half (half : 2 * table.capacity = 2 ^ 32)
    (full : table.threshold <= table.size) (key : Bytes) (value : Value) :
    words.insert key value = throw .divisionByZero := by
  have wrapped : 2 * words.capacity = 0 := by
    rw [← UInt32.toNat_inj, UInt32.toNat_mul, shown.capacity]
    exact half ▸ Nat.mod_self _
  have noRoom : words.threshold <= words.size := by
    rw [UInt32.le_iff_toNat_le, shown.size, shown.threshold]
    exact full
  rw [insert, nesting, insertWithin_of_le noRoom, doubleWithin, wrapped]
  -- With entries it is the first of them that cannot be stored, without it is the new one.
  cases words.entries with
  | nil => rfl
  | cons entry entries =>
      rw [List.foldlM_cons, insertWithin_withCapacity_zero]
      rfl

end Shows

end WordTable

/-! ## How far a table of eight slots grows -/

namespace ProbeTable

variable {Value : Type}

/-- The capacity is eight times a power of two, and it is no more than a row of
distinct keys takes. -/
theorem exists_capacity_insertAll {bound : Nat} {inserted : List (Bytes × Value)}
    (distinct : (inserted.map Prod.fst).Nodup) (few : inserted.length <= 6 * 2 ^ bound) :
    Exists fun exponent => exponent <= bound ∧
      ((withCapacity 8).insertAll inserted).capacity = 8 * 2 ^ exponent := by
  induction inserted using List.reverseRecOn with
  | nil => exact ⟨0, Nat.zero_le bound, Array.size_replicate⟩
  | append_singleton inserted entry inductionHypothesis =>
      rw [List.length_append, List.length_singleton] at few
      rw [List.map_append, List.nodup_append] at distinct
      rcases inductionHypothesis distinct.1 (by omega) with ⟨exponent, small, sameCapacity⟩
      have positive : 0 < 8 := by decide
      rcases records_insertAll positive inserted with ⟨records, light⟩
      have sized : ((withCapacity 8).insertAll inserted).size = inserted.length := by
        rw [records.size_eq, List.toFinset_card_of_nodup distinct.1, List.length_map]
      rw [insertAll_concat, insert_eq_place, capacity_place, roomy]
      split
      · next full =>
          rw [threshold, sameCapacity, sized] at full
          -- A table that is full to its threshold holds fewer keys than the bound allows.
          have below : 2 ^ exponent < 2 ^ bound := by omega
          refine ⟨exponent + 1, (Nat.pow_lt_pow_iff_right (by decide)).1 below, ?_⟩
          rw [(records.double_stores light).2.1, sameCapacity, Nat.pow_succ]
          omega
      · exact ⟨exponent, small, sameCapacity⟩

section Limit

variable {table : ProbeTable Value} {exponent : Nat} (small : exponent <= 28)
  (capacity : table.capacity = 8 * 2 ^ exponent)

include small capacity

/-- Before three quarters of `2 ^ 31` slots are taken, a word can hold the capacity
that the next insertion needs. -/
theorem fits_of_size_lt (few : table.size < 6 * 2 ^ 28) :
    table.size < table.threshold ∨ 2 * table.capacity < 2 ^ 32 := by
  rcases Nat.lt_or_eq_of_le small with less | last
  · right
    have below : 2 ^ exponent < 2 ^ 28 := Nat.pow_lt_pow_right (by decide) less
    omega
  · left
    rw [threshold, capacity, last]
    omega

/-- A table that is filled to three quarters of `2 ^ 31` slots has that many slots. -/
theorem full_of_size_eq (light : table.size <= table.threshold) (many : table.size = 6 * 2 ^ 28) :
    2 * table.capacity = 2 ^ 32 ∧ table.threshold <= table.size := by
  rw [threshold, capacity, many] at light
  have above : 2 ^ 28 <= 2 ^ exponent := by omega
  have below : 2 ^ exponent <= 2 ^ 28 := Nat.pow_le_pow_right (by decide) small
  rw [threshold, capacity, many]
  omega

end Limit

end ProbeTable

end TailLisp
