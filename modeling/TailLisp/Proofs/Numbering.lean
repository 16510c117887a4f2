import TailLisp.Proofs.BufferHistories
import TailLisp.Proofs.Interning
import TailLisp.Proofs.WordProbing
import TailLisp.SymbolStore

namespace TailLisp

/-!
Numbering names.

The readers work with a symbol table that is a list of distinct names.  Its
store finds ids by probing and names by index, and has to keep the two in step
while either of them grows.  Here the store is shown to answer as the list
does after any sequence of calls: names entered one by one, preparations, and
readings of programs, data and single items, whether they succeed or stop at a
fault.

A reading that fails has interned names all the same, so what a call brings is
taken from the reading and not from its outcome.

The store counts in words of 32 bits.  It refuses a new name only when the ids
have run out, but it never gets as far as that.  Its probing table doubles once
three quarters of the slots are taken, and the number of slots wraps around to
zero long before the ids do.  So the store answers as the list does up to a
number of names, and the first name beyond that number breaks it.
-/

/-- A call that can enter names. -/
inductive TableCall where
  | intern (name : Bytes)
  | prepare
  /-- Reads a program, wherever its text begins. -/
  | program (cursor : Cursor)
  /-- Reads the one datum of a text. -/
  | datum (text : Bytes)
  /-- Reads the next item, of code or of data. -/
  | item (slot : Slot) (cursor : Cursor)

namespace TableCall

def prepares : TableCall -> Bool
  | prepare => true
  | _ => false

/-- The names that a call interns, in order.  Programs and whole data are
refused before anything is read unless the table is ready. -/
def brings (ready : Bool) : TableCall -> List Bytes
  | intern name => [name]
  | prepare => SpecialForm.all.map SpecialForm.name
  | program cursor => if ready then (Reader.readAll (.code false) cursor).names else []
  | datum text => if ready then (Reader.read .data (.ofText text)).names else []
  | item slot cursor => (Reader.read slot cursor).names

/-- All names that a sequence of calls interns. -/
def arrivals : Bool -> List TableCall -> List Bytes
  | _, [] => []
  | ready, call :: calls => call.brings ready ++ arrivals (ready || call.prepares) calls

end TableCall

theorem TableCall.arrivals_map_intern (ready : Bool) (names : List Bytes) :
    arrivals ready (names.map intern) = names := by
  induction names generalizing ready with
  | nil => rfl
  | cons name names inductionHypothesis =>
      rw [List.map_cons, arrivals, inductionHypothesis]
      rfl

namespace SymbolTable

/-- The table after a call. -/
def call (table : SymbolTable) : TableCall -> SymbolTable
  | .intern name => (table.intern name).2
  | .prepare => table.prepare
  | .program cursor =>
      match table.readForms cursor with
      | .ok read => read.table
      | .error _ => table
  | .datum text =>
      match table.parseDatum text with
      | .ok read => read.table
      | .error _ => table
  | .item slot cursor => (table.readItem slot cursor).table

/-- The table after a sequence of calls. -/
def run (table : SymbolTable) (calls : List TableCall) : SymbolTable :=
  calls.foldl call table

/-- A program's names are entered, also those before a fault. -/
theorem readForms_table {table : SymbolTable} (ready : table.ready = true) (cursor : Cursor) :
    Exists fun read => table.readForms cursor = .ok read ∧
      read.table = table.insertAll (Reader.readAll (.code false) cursor).names := by
  rw [readForms, checkReady, if_pos ready]
  exact ⟨_, rfl, rfl⟩

/-- A datum's names are entered, also if more text follows it. -/
theorem parseDatum_table {table : SymbolTable} (ready : table.ready = true) (text : Bytes) :
    Exists fun read => table.parseDatum text = .ok read ∧
      read.table = table.insertAll (Reader.read .data (.ofText text)).names := by
  rw [parseDatum, checkReady, if_pos ready]
  cases outcome : (table.readItem .data (.ofText text)).outcome with
  | error fault => exact ⟨_, by simp only [bind, Except.bind, outcome]; rfl, rfl⟩
  | ok node =>
      simp only [bind, Except.bind, outcome]
      split <;> exact ⟨_, rfl, rfl⟩

theorem readForms_of_not_ready {table : SymbolTable} (notReady : ¬ table.ready = true)
    (cursor : Cursor) : table.readForms cursor = .error .unpreparedTable := by
  rw [readForms, checkReady, if_neg notReady]
  rfl

theorem parseDatum_of_not_ready {table : SymbolTable} (notReady : ¬ table.ready = true)
    (text : Bytes) : table.parseDatum text = .error .unpreparedTable := by
  rw [parseDatum, checkReady, if_neg notReady]
  rfl

/-- A call enters the names that it brings, and only a preparation does more. -/
theorem call_eq (table : SymbolTable) {call : TableCall} (entersOnly : call.prepares = false) :
    table.call call = table.insertAll (call.brings table.ready) := by
  cases call with
  | intern name => rfl
  | prepare => cases entersOnly
  | program cursor =>
      rw [SymbolTable.call, TableCall.brings]
      by_cases ready : table.ready = true
      · rcases readForms_table ready cursor with ⟨read, done, filled⟩
        rw [done, if_pos ready, ← filled]
      · rw [readForms_of_not_ready ready, if_neg ready]
        rfl
  | datum text =>
      rw [SymbolTable.call, TableCall.brings]
      by_cases ready : table.ready = true
      · rcases parseDatum_table ready text with ⟨read, done, filled⟩
        rw [done, if_pos ready, ← filled]
      · rw [parseDatum_of_not_ready ready, if_neg ready]
        rfl
  | item slot cursor => rfl

theorem names_call (table : SymbolTable) (call : TableCall) :
    (table.call call).names = (table.insertAll (call.brings table.ready)).names := by
  cases entersOnly : call.prepares with
  | false => rw [call_eq table entersOnly]
  | true =>
      cases call with
      | prepare => exact names_prepare table
      | _ => cases entersOnly

theorem ready_call (table : SymbolTable) (call : TableCall) :
    (table.call call).ready = (table.ready || call.prepares) := by
  cases entersOnly : call.prepares with
  | false => rw [call_eq table entersOnly, ready_insertAll, Bool.or_false]
  | true =>
      cases call with
      | prepare => exact (ready_prepare table).trans (Bool.or_true _).symm
      | _ => cases entersOnly

theorem names_isPrefix_run (table : SymbolTable) (calls : List TableCall) :
    table.names <+: (table.run calls).names := by
  induction calls generalizing table with
  | nil => exact List.prefix_rfl
  | cons call calls inductionHypothesis =>
      refine List.IsPrefix.trans ?_ (inductionHypothesis (table.call call))
      rw [names_call]
      exact names_isPrefix_insertAll table _

/-- A table holds what it held and what the calls brought. -/
theorem mem_names_run {table : SymbolTable} {calls : List TableCall} {name : Bytes} :
    name ∈ (table.run calls).names ↔
      name ∈ table.names ∨ name ∈ TableCall.arrivals table.ready calls := by
  induction calls generalizing table with
  | nil => simp [run, TableCall.arrivals]
  | cons call calls inductionHypothesis =>
      change name ∈ ((table.call call).run calls).names ↔ _
      rw [inductionHypothesis, names_call, mem_insertAll, ready_call, TableCall.arrivals,
        List.mem_append, or_assoc]

/-- From an empty table on, a table holds just what the calls brought. -/
theorem mem_names_run_empty {calls : List TableCall} {name : Bytes} :
    name ∈ (empty.run calls).names ↔ name ∈ TableCall.arrivals false calls := by
  rw [mem_names_run]
  exact or_iff_right List.not_mem_nil

theorem size_run_empty (calls : List TableCall) :
    (empty.run calls).size = (TableCall.arrivals false calls).toFinset.card := by
  have sameNames :
      (empty.run calls).names.toFinset = (TableCall.arrivals false calls).toFinset := by
    ext name
    rw [List.mem_toFinset, List.mem_toFinset, mem_names_run_empty]
  rw [← sameNames, List.toFinset_card_of_nodup (empty.run calls).distinct]
  rfl

theorem ready_run_of_mem {table : SymbolTable} {calls : List TableCall}
    (prepared : table.ready = true ∨ TableCall.prepare ∈ calls) :
    (table.run calls).ready = true := by
  induction calls generalizing table with
  | nil => exact prepared.resolve_right (List.not_mem_nil)
  | cons call calls inductionHypothesis =>
      apply inductionHypothesis
      rw [ready_call, Bool.or_eq_true]
      rcases prepared with ready | member
      · exact .inl (.inl ready)
      · rcases List.mem_cons.1 member with same | member
        · rw [← same]
          exact .inl (.inr rfl)
        · exact .inr member

end SymbolTable

/-! ## The store and the list of names -/

/-- The names that fill `2 ^ 31` slots to the threshold. -/
def mostNames : Nat := 6 * 2 ^ 28

namespace Attempt

variable {First Second : Type}

/-- The work succeeds with a property while no more names are held than a store can
take, and divides by zero otherwise. -/
structure Keeps (attempt : Attempt First) (held : Nat) (property : First -> Prop) : Prop where
  succeeds : held <= mostNames -> Exists fun result => attempt = pure result ∧ property result
  breaks : mostNames < held -> attempt = throw .divisionByZero

namespace Keeps

variable {attempt : Attempt First} {held : Nat} {property : First -> Prop}

theorem of_pure {result : First} (few : held <= mostNames) (kept : property result) :
    Keeps (pure result) held property :=
  ⟨fun _ => ⟨result, rfl, kept⟩, fun many => absurd few (Nat.not_le.2 many)⟩

theorem of_throw (many : mostNames < held) :
    Keeps (throw .divisionByZero) held property :=
  ⟨fun few => absurd few (Nat.not_le.2 many), fun _ => rfl⟩

theorem imp {weaker : First -> Prop} (keeps : attempt.Keeps held property)
    (implied : forall result, property result -> weaker result) : attempt.Keeps held weaker where
  succeeds few := by
    rcases keeps.succeeds few with ⟨result, done, kept⟩
    exact ⟨result, done, implied result kept⟩
  breaks := keeps.breaks

/-- Work that has succeeded has kept the property. -/
theorem of_eq_pure {result : First} (keeps : attempt.Keeps held property)
    (done : attempt = pure result) : property result := by
  rcases Nat.lt_or_ge mostNames held with many | few
  · rw [keeps.breaks many] at done
    cases done
  · rcases keeps.succeeds few with ⟨other, alsoDone, kept⟩
    rw [alsoDone] at done
    cases done
    exact kept

/-- Work goes on with what was kept so far. -/
theorem bind {next : First -> Attempt Second} {later : Nat} {continued : Second -> Prop}
    (keeps : attempt.Keeps held property) (grows : held <= later)
    (goesOn : forall result, property result -> (next result).Keeps later continued) :
    Keeps (attempt >>= next) later continued := by
  rcases Nat.lt_or_ge mostNames held with many | few
  · rw [keeps.breaks many]
    exact of_throw (Nat.lt_of_lt_of_le many grows)
  · rcases keeps.succeeds few with ⟨result, done, kept⟩
    rw [done]
    exact goesOn result kept

end Keeps

end Attempt

namespace SymbolStore

/-- The store after a call. -/
def call (store : SymbolStore) : TableCall -> Attempt SymbolStore
  | .prepare => store.prepare
  | call => store.internAll (call.brings store.ready)

/-- The store after a sequence of calls. -/
def run (store : SymbolStore) (calls : List TableCall) : Attempt SymbolStore :=
  calls.foldlM call store

theorem internAll_cons (store : SymbolStore) (name : Bytes) (names : List Bytes) :
    store.internAll (name :: names) =
      store.intern name >>= fun result => result.2.internAll names := by
  rw [internAll, List.foldlM_cons, map_eq_pure_bind, bind_assoc]
  rfl

theorem run_cons (store : SymbolStore) (call : TableCall) (calls : List TableCall) :
    store.run (call :: calls) = store.call call >>= fun after => after.run calls :=
  List.foldlM_cons

/-- Names with their places as words. -/
def numbered (names : List Bytes) : List (Bytes × UInt32) :=
  names.zipIdx.map fun entry => (entry.1, .ofNat entry.2)

theorem map_fst_numbered (names : List Bytes) : (numbered names).map Prod.fst = names := by
  rw [numbered, List.map_map]
  exact List.zipIdx_map_fst 0 names

theorem numbered_concat (names : List Bytes) (name : Bytes) :
    numbered (names ++ [name]) = numbered names ++ [(name, .ofNat names.length)] := by
  rw [numbered, List.zipIdx_append, List.map_append, List.zipIdx_singleton, Nat.zero_add]
  rfl

/-- Both directions of the store lead to the names of the table: the buffer
lists them, and each was put under its place into the probing table.  All counters
are within a word. -/
structure Mirrors (store : SymbolStore) (table : SymbolTable) : Prop where
  names : store.names.items = table.names
  ids : store.ids.Shows ((ProbeTable.withCapacity 8).insertAll (numbered table.names))
  few : table.size <= mostNames
  isCapacity : Buffer.IsCapacity store.names.capacity
  capacity_le : store.names.capacity <= 2 ^ 31

namespace Mirrors

variable {store : SymbolStore} {table : SymbolTable} (mirrors : store.Mirrors table)

include mirrors

theorem toNat_size : store.size.toNat = table.size := by
  have few := mirrors.few
  rw [size, Buffer.size, mirrors.names, UInt32.toNat_ofNat']
  exact Nat.mod_eq_of_lt (Nat.lt_of_le_of_lt few (by decide))

theorem nameOf_eq (id : UInt32) : store.nameOf id = table.nameOf id.toNat := by
  rw [nameOf, mirrors.names, SymbolTable.nameOf]
  split
  · next beyond =>
      rw [UInt32.le_iff_toNat_le, mirrors.toNat_size] at beyond
      rw [List.getElem?_eq_none beyond, Option.getD_none]
  · rfl

/-- The entries were inserted once each, and the capacity is what they take. -/
theorem probing : let probed := (ProbeTable.withCapacity 8).insertAll (numbered table.names)
    probed.Records (numbered table.names) ∧ probed.size <= probed.threshold ∧
      probed.size = table.size ∧
      Exists fun exponent => exponent <= 28 ∧ probed.capacity = 8 * 2 ^ exponent := by
  intro probed
  have positive : 0 < 8 := by decide
  have distinct := table.distinct
  have few := mirrors.few
  rcases ProbeTable.records_insertAll positive (numbered table.names) with ⟨records, light⟩
  refine ⟨records, light, ?_, ?_⟩
  · rw [records.size_eq, map_fst_numbered, List.toFinset_card_of_nodup distinct]
    rfl
  · apply ProbeTable.exists_capacity_insertAll
    · rwa [map_fst_numbered]
    · rwa [numbered, List.length_map, List.length_zipIdx]

/-- A look-up by name finds the place of the name. -/
theorem find?_eq (name : Bytes) : store.ids.find? name =
    pure (if name ∈ table.names then some (.ofNat (table.idOf name)) else none) := by
  rcases mirrors.probing with ⟨records, light, _, _⟩
  have positive : 0 < 8 := by decide
  have consistent : forall label first second,
      (label, first) ∈ (numbered table.names).reverse ->
      (label, second) ∈ (numbered table.names).reverse -> first = second := by
    intro label first second atFirst atSecond
    simp only [List.mem_reverse, numbered, List.mem_map, Prod.exists, Prod.mk.injEq,
      List.mk_mem_zipIdx_iff_getElem?, List.getElem?_eq_some_iff] at atFirst atSecond
    rcases atFirst with ⟨_, place, ⟨inFirst, sameFirst⟩, rfl, rfl⟩
    rcases atSecond with ⟨_, other, ⟨inSecond, sameSecond⟩, same, rfl⟩
    rw [(table.distinct.getElem_inj_iff).1 (sameFirst.trans (same.symm.trans sameSecond.symm))]
  rw [mirrors.ids.find?_eq records.chained.positive, ProbeTable.find?_insertAll positive]
  split
  · next held =>
      rw [ProbeTable.lookup_eq_some_iff_mem consistent |>.2]
      rw [List.mem_reverse, numbered, List.mem_map]
      exact ⟨(name, table.idOf name), List.mk_mem_zipIdx_iff_getElem?.2
        (List.getElem?_idxOf held), rfl⟩
  · next notHeld =>
      have lost : (numbered table.names).reverse.lookup name = none := by
        rw [List.lookup_eq_none_iff]
        intro entry member
        rw [List.mem_reverse] at member
        apply bne_iff_ne.2
        intro same
        apply notHeld
        rw [← map_fst_numbered table.names, same]
        exact List.mem_map_of_mem member
      rw [lost]

theorem contains_eq (name : Bytes) :
    store.contains name = pure (decide (name ∈ table.names)) := by
  rw [contains, mirrors.find?_eq]
  by_cases held : name ∈ table.names
  · rw [if_pos held, decide_eq_true held]
    rfl
  · rw [if_neg held, decide_eq_false held]
    rfl

/-- A name that is held is found, and nothing changes. -/
theorem intern_of_held {name : Bytes} (held : name ∈ table.names) :
    store.intern name = pure (.ofNat (table.idOf name), store) := by
  rw [intern, mirrors.find?_eq, if_pos held]
  rfl

/-- A new name is not refused, because the ids have not run out. -/
theorem intern_of_not_held {name : Bytes} (notHeld : name ∉ table.names) :
    store.intern name = (fun ids => (store.size,
      { store with ids, names := store.names.push name })) <$>
        store.ids.insert name store.size := by
  have few := mirrors.few
  have room : ¬ idLimit <= store.size := by
    rw [UInt32.le_iff_toNat_le, mirrors.toNat_size, Nat.not_le]
    exact Nat.lt_of_le_of_lt few (by decide)
  rw [intern, mirrors.find?_eq, if_neg notHeld, WordTable.pure_bind_attempt, if_neg room]
  rfl

/-- Interning a name keeps both directions in step. -/
theorem intern (name : Bytes) :
    (store.intern name).Keeps (table.insert name).size fun result =>
      result.1 = .ofNat (table.idOf name) ∧ result.2.Mirrors (table.insert name) ∧
        result.2.ready = store.ready ∧ result.2.reserved = store.reserved := by
  by_cases held : name ∈ table.names
  · rw [mirrors.intern_of_held held, SymbolTable.insert_of_held held]
    exact .of_pure mirrors.few ⟨rfl, mirrors, rfl, rfl⟩
  · rcases mirrors.probing with ⟨records, light, sized, exponent, small, capacity⟩
    have place : store.size = .ofNat table.names.length := by
      rw [size, Buffer.size, mirrors.names]
    have grown : (table.insert name).names = table.names ++ [name] :=
      SymbolTable.names_insert_of_not_held held
    have counted : (table.insert name).size = table.size + 1 := by
      rw [SymbolTable.size, grown, List.length_append]
      rfl
    rw [mirrors.intern_of_not_held held, counted]
    rcases Nat.lt_or_ge table.size mostNames with room | full
    · have fits := ProbeTable.fits_of_size_lt small capacity (by rwa [sized])
      rcases mirrors.ids.insert_eq records light fits name store.size with
        ⟨after, inserted, shown⟩
      rw [inserted]
      refine Attempt.Keeps.of_pure room ⟨?_, ⟨?_, ?_, ?_, ?_, ?_⟩, rfl, rfl⟩
      · rw [SymbolTable.idOf_of_not_held held]
        exact place
      · rw [grown, ← mirrors.names]
        rfl
      · rw [grown, numbered_concat, ProbeTable.insertAll_concat, ← place]
        exact shown
      · rw [counted]
        exact room
      · exact mirrors.isCapacity.grown _
      · have needed : store.names.size + 1 <= 2 ^ 31 := by
          rw [Buffer.size, mirrors.names]
          exact Nat.le_trans room (by decide)
        exact mirrors.isCapacity.grown_le 28 mirrors.capacity_le needed
    · have many : table.size = mostNames := Nat.le_antisymm mirrors.few full
      rcases ProbeTable.full_of_size_eq small capacity light (sized.trans many) with
        ⟨half, atThreshold⟩
      rw [mirrors.ids.insert_of_half half atThreshold]
      exact .of_throw (by omega)

end Mirrors

theorem size_le_size_insertAll (table : SymbolTable) (names : List Bytes) :
    table.size <= (table.insertAll names).size :=
  (SymbolTable.names_isPrefix_insertAll table names).length_le

/-- Reserving names keeps both directions in step and notes down the ids. -/
theorem Mirrors.reserve_all {store : SymbolStore} {table : SymbolTable}
    (mirrors : store.Mirrors table) (forms : List SpecialForm) :
    Attempt.Keeps (forms.foldlM reserve store)
      (table.insertAll (forms.map SpecialForm.name)).size fun after =>
        after.Mirrors (table.insertAll (forms.map SpecialForm.name)) ∧
          forall form, form ∈ forms -> after.reserved form =
            .ofNat ((table.insertAll (forms.map SpecialForm.name)).idOf form.name) := by
  induction forms using List.reverseRecOn with
  | nil => exact .of_pure mirrors.few ⟨mirrors, nofun⟩
  | append_singleton forms last inductionHypothesis =>
      have filled : table.insertAll ((forms ++ [last]).map SpecialForm.name) =
          (table.insertAll (forms.map SpecialForm.name)).insert last.name := by
        rw [SymbolTable.insertAll, List.map_append, List.map_singleton, List.foldl_concat]
        rfl
      rw [List.foldlM_append, filled]
      refine inductionHypothesis.bind (size_le_size_insertAll _ [last.name]) ?_
      rintro before ⟨mirrorsBefore, noted⟩
      simp only [List.foldlM_cons, List.foldlM_nil, bind_pure, reserve]
      refine (mirrorsBefore.intern last.name).bind (Nat.le_refl _) ?_
      rintro ⟨id, after⟩ ⟨sameId, mirrorsAfter, _, sameReserved⟩
      refine .of_pure mirrorsAfter.few ⟨{ mirrorsAfter with }, fun form member => ?_⟩
      by_cases same : form = last
      · rw [same, SymbolTable.idOf_insert_self, ← sameId]
        exact if_pos rfl
      · have earlier : form ∈ forms := by simpa [same] using member
        have held : form.name ∈ (table.insertAll (forms.map SpecialForm.name)).names :=
          SymbolTable.mem_insertAll.2 (.inr (List.mem_map_of_mem earlier))
        rw [SymbolTable.idOf_of_isPrefix (SymbolTable.names_isPrefix_insert _ _) held,
          ← noted form earlier, ← sameReserved]
        exact if_neg same

/-- The store answers as the table does. -/
structure Represents (store : SymbolStore) (table : SymbolTable) : Prop extends
    store.Mirrors table where
  ready : store.ready = table.ready
  reserved : forall form, store.reserved form = .ofNat (table.reservedId form)

namespace Represents

variable {store : SymbolStore} {table : SymbolTable} (represents : store.Represents table)

include represents

theorem intern (name : Bytes) :
    (store.intern name).Keeps (table.insert name).size fun result =>
      result.1 = .ofNat (table.idOf name) ∧ result.2.Represents (table.insert name) := by
  refine (represents.toMirrors.intern name).imp ?_
  rintro result ⟨sameId, mirrors, sameReady, sameReserved⟩
  refine ⟨sameId, { mirrors with ready := ?_, reserved := fun form => ?_ }⟩
  · rw [sameReady, SymbolTable.ready_insert, represents.ready]
  · rw [sameReserved, represents.reserved, SymbolTable.reservedId, SymbolTable.reservedId,
      SymbolTable.ready_insert]
    split
    · next ready =>
        rw [SymbolTable.idOf_of_isPrefix (SymbolTable.names_isPrefix_insert table name)
          (table.reserved ready form)]
    · rfl

theorem internAll (names : List Bytes) :
    (store.internAll names).Keeps (table.insertAll names).size fun after =>
      after.Represents (table.insertAll names) := by
  induction names generalizing store table with
  | nil => exact .of_pure represents.few represents
  | cons name names inductionHypothesis =>
      rw [internAll_cons]
      refine (represents.intern name).bind (size_le_size_insertAll (table.insert name) names) ?_
      rintro result ⟨_, representsAfter⟩
      exact inductionHypothesis representsAfter

theorem prepare : store.prepare.Keeps table.prepare.size fun after =>
    after.Represents table.prepare := by
  have sized : table.prepare.size =
      (table.insertAll (SpecialForm.all.map SpecialForm.name)).size := by
    rw [SymbolTable.size, SymbolTable.names_prepare]
    rfl
  have filled := represents.toMirrors.reserve_all SpecialForm.all
  rw [← sized] at filled
  refine filled.bind (Nat.le_refl _) ?_
  rintro after ⟨mirrors, noted⟩
  have few := mirrors.few
  rw [← sized] at few
  refine .of_pure few ⟨⟨?_, ?_, ?_, mirrors.isCapacity, mirrors.capacity_le⟩,
    (SymbolTable.ready_prepare table).symm, fun form => ?_⟩
  · rw [SymbolTable.names_prepare]
    exact mirrors.names
  · rw [SymbolTable.names_prepare]
    exact mirrors.ids
  · exact few
  · rw [SymbolTable.reservedId, if_pos (SymbolTable.ready_prepare table), SymbolTable.idOf,
      SymbolTable.names_prepare]
    exact noted form (SpecialForm.mem_all form)

theorem call (call : TableCall) :
    (store.call call).Keeps (table.call call).size fun after =>
      after.Represents (table.call call) := by
  cases entersOnly : call.prepares with
  | false =>
      have sameCall : store.call call = store.internAll (call.brings store.ready) := by
        cases call with
        | prepare => cases entersOnly
        | _ => rfl
      rw [SymbolTable.call_eq table entersOnly, sameCall, represents.ready]
      exact represents.internAll _
  | true =>
      cases call with
      | prepare => exact represents.prepare
      | _ => cases entersOnly

theorem run (calls : List TableCall) :
    (store.run calls).Keeps (table.run calls).size fun after =>
      after.Represents (table.run calls) := by
  induction calls generalizing store table with
  | nil => exact .of_pure represents.few represents
  | cons call calls inductionHypothesis =>
      rw [run_cons]
      have grows : (table.call call).size <= (table.run (call :: calls)).size :=
        (SymbolTable.names_isPrefix_run (table.call call) calls).length_le
      refine (represents.call call).bind grows ?_
      intro after representsAfter
      exact inductionHypothesis representsAfter

end Represents

theorem represents_empty : empty.Represents SymbolTable.empty where
  names := rfl
  ids := WordTable.shows_withCapacity initialCapacity
  few := by decide
  isCapacity := .inr ⟨0, rfl⟩
  capacity_le := by decide
  ready := rfl
  reserved := fun _ => rfl

/-! ## Whole runs -/

namespace Mirrors

variable {store : SymbolStore} {table : SymbolTable} (mirrors : store.Mirrors table)

include mirrors

theorem lt_size_iff {id : UInt32} : id < store.size ↔ id.toNat < table.size := by
  rw [UInt32.lt_iff_toNat_lt, mirrors.toNat_size]

/-- The ids of the names that are held fit into a word. -/
theorem toNat_idOf {name : Bytes} (held : name ∈ table.names) :
    (UInt32.ofNat (table.idOf name)).toNat = table.idOf name := by
  have given := SymbolTable.idOf_lt_size.2 held
  have few := mirrors.few
  have small : mostNames < 2 ^ 32 := by decide
  rw [UInt32.toNat_ofNat']
  exact Nat.mod_eq_of_lt (Nat.lt_trans (Nat.lt_of_lt_of_le given few) small)

end Mirrors

/-- The ids below the size and the names that have arrived determine each other.
Interning finds the id of a name that has arrived, and gives the next id to any other
as long as there is room for it. -/
structure Numbers (store : SymbolStore) (arrived : List Bytes) : Prop where
  size_eq : store.size.toNat = arrived.toFinset.card
  contains_eq : forall name, store.contains name = pure (decide (name ∈ arrived))
  nameOf_mem : forall id, id < store.size -> store.nameOf id ∈ arrived
  nameOf_beyond : forall id, store.size <= id -> store.nameOf id = []
  intern_nameOf : forall id, id < store.size -> store.intern (store.nameOf id) = pure (id, store)
  exists_id : forall name, name ∈ arrived -> Exists fun id =>
    id < store.size ∧ store.nameOf id = name
  intern_new : forall name, name ∉ arrived -> arrived.toFinset.card < 1610612736 ->
    Exists fun after => store.intern name = pure (store.size, after)
  nameOf_intern : forall name id after, store.intern name = pure (id, after) ->
    after.nameOf id = name
  intern_inj : forall name id after other otherId last,
    store.intern name = pure (id, after) -> after.intern other = pure (otherId, last) ->
      (id = otherId ↔ name = other)

namespace Represents

variable {store : SymbolStore} {table : SymbolTable} (represents : store.Represents table)

include represents

/-- What interning gives is the id in the table. -/
theorem of_intern {name : Bytes} {id : UInt32} {after : SymbolStore}
    (interned : store.intern name = pure (id, after)) :
    after.Represents (table.insert name) ∧ id.toNat = table.idOf name := by
  rcases (represents.intern name).of_eq_pure interned with ⟨sameId, representsAfter⟩
  refine ⟨representsAfter, ?_⟩
  have held : name ∈ (table.insert name).names := SymbolTable.mem_insert.2 (.inr rfl)
  rw [show id = .ofNat (table.idOf name) from sameId, ← SymbolTable.idOf_insert_self]
  exact representsAfter.toMirrors.toNat_idOf held

/-- A store numbers the names that its table holds. -/
theorem numbers {arrived : List Bytes} (holds : forall name, name ∈ table.names ↔ name ∈ arrived)
    (sized : table.size = arrived.toFinset.card) : store.Numbers arrived where
  size_eq := represents.toNat_size.trans sized
  contains_eq name := by rw [represents.contains_eq, decide_eq_decide.2 (holds name)]
  nameOf_mem id given := by
    rw [represents.nameOf_eq]
    exact (holds _).1 (SymbolTable.nameOf_mem (represents.lt_size_iff.1 given))
  nameOf_beyond id beyond := if_pos beyond
  intern_nameOf id given := by
    have inTable := represents.lt_size_iff.1 given
    rw [represents.nameOf_eq, represents.intern_of_held (SymbolTable.nameOf_mem inTable),
      SymbolTable.idOf_nameOf inTable, UInt32.ofNat_toNat]
  exists_id name has := by
    have held := (holds name).2 has
    have sameId := represents.toNat_idOf held
    refine ⟨.ofNat (table.idOf name), ?_, ?_⟩
    · rw [represents.lt_size_iff, sameId]
      exact SymbolTable.idOf_lt_size.2 held
    · rw [represents.nameOf_eq, sameId, SymbolTable.nameOf_idOf held]
  intern_new name new room := by
    have notHeld : name ∉ table.names := fun held => new ((holds name).1 held)
    have grown : (table.insert name).size <= mostNames := by
      rw [SymbolTable.size, SymbolTable.names_insert_of_not_held notHeld, List.length_append]
      rw [← sized] at room
      exact room
    rcases (represents.intern name).succeeds grown with ⟨⟨id, after⟩, interned, sameId, _⟩
    refine ⟨after, interned.trans ?_⟩
    rw [show id = .ofNat (table.idOf name) from sameId, SymbolTable.idOf_of_not_held notHeld,
      ← represents.toNat_size, UInt32.ofNat_toNat]
  nameOf_intern name id after interned := by
    rcases represents.of_intern interned with ⟨representsAfter, sameId⟩
    rw [representsAfter.nameOf_eq, sameId, ← SymbolTable.idOf_insert_self]
    exact SymbolTable.nameOf_idOf (SymbolTable.mem_insert.2 (.inr rfl))
  intern_inj name id after other otherId last interned alsoInterned := by
    rcases represents.of_intern interned with ⟨representsAfter, sameId⟩
    rcases representsAfter.of_intern alsoInterned with ⟨_, sameOtherId⟩
    rw [← UInt32.toNat_inj, sameId, sameOtherId, ← SymbolTable.idOf_insert_self]
    exact List.idxOf_inj (SymbolTable.mem_insert.2 (.inr rfl))

/-- Whatever is done later, ids keep their names and names their ids. -/
theorem kept {later : List TableCall} {after : SymbolStore} (ran : store.run later = pure after) :
    (forall id, id < store.size -> after.nameOf id = store.nameOf id) ∧
    forall name, name ∈ table.names -> Exists fun id =>
      store.intern name = pure (id, store) ∧ after.intern name = pure (id, after) := by
  have representsAfter := (represents.run later).of_eq_pure ran
  have grown := SymbolTable.names_isPrefix_run table later
  constructor
  · intro id given
    rw [representsAfter.nameOf_eq, represents.nameOf_eq]
    exact SymbolTable.nameOf_of_isPrefix grown (represents.lt_size_iff.1 given)
  · intro name held
    refine ⟨_, represents.intern_of_held held, ?_⟩
    rw [representsAfter.intern_of_held (grown.subset held),
      SymbolTable.idOf_of_isPrefix grown held]

/-- The ids that a ready store has noted down stay. -/
theorem reserved_kept (ready : table.ready = true) {later : List TableCall}
    {after : SymbolStore} (ran : store.run later = pure after) :
    after.reserved = store.reserved := by
  funext form
  have held := table.reserved ready form
  have stillReady : (table.run later).ready = true := SymbolTable.ready_run_of_mem (.inl ready)
  rw [((represents.run later).of_eq_pure ran).reserved, represents.reserved,
    SymbolTable.reservedId, SymbolTable.reservedId, if_pos ready, if_pos stillReady,
    SymbolTable.idOf_of_isPrefix (SymbolTable.names_isPrefix_run table later) held]

/-- The ids that a ready store has noted down are those of the names. -/
theorem intern_reserved (ready : table.ready = true) (form : SpecialForm) :
    store.intern form.name = pure (store.reserved form, store) := by
  rw [represents.intern_of_held (table.reserved ready form), represents.reserved,
    SymbolTable.reservedId, if_pos ready]

end Represents

/-- Names are numbered stably over whole runs with up to three quarters of `2 ^ 31`
distinct names.  After any calls, failing or not, the ids and the names that have
arrived determine each other.  Once a preparation was among the calls, the ids noted
down for the special forms are those of their names.  Later calls change neither the
name of an id nor the id of a name.

With one more name a run does not come to its end, however the calls are arranged. It
is not stopped by the limit of ids, but by a table whose capacity has wrapped around
to zero. -/
theorem run_numbers_until_wrapped (calls : List TableCall) :
    let arrived := TableCall.arrivals false calls
    (arrived.toFinset.card <= 1610612736 -> Exists fun store =>
      empty.run calls = pure store ∧
      store.Numbers arrived ∧
      (TableCall.prepare ∈ calls -> forall form : SpecialForm,
        form.name ∈ arrived ∧ store.intern form.name = pure (store.reserved form, store)) ∧
      forall later after, store.run later = pure after ->
        (forall id, id < store.size -> after.nameOf id = store.nameOf id) ∧
        (forall name, name ∈ arrived -> Exists fun id =>
          store.intern name = pure (id, store) ∧ after.intern name = pure (id, after)) ∧
        (TableCall.prepare ∈ calls -> after.reserved = store.reserved)) ∧
    (1610612736 < arrived.toFinset.card -> empty.run calls = throw .divisionByZero) := by
  intro arrived
  have sized := SymbolTable.size_run_empty calls
  have ran := represents_empty.run calls
  refine ⟨fun few => ?_, fun many => ran.breaks (sized ▸ many)⟩
  rcases ran.succeeds (sized ▸ few) with ⟨store, done, represents⟩
  have ready (prepared : TableCall.prepare ∈ calls) :
      (SymbolTable.empty.run calls).ready = true :=
    SymbolTable.ready_run_of_mem (.inr prepared)
  refine ⟨store, done, represents.numbers (fun _ => SymbolTable.mem_names_run_empty) sized,
    fun prepared form => ⟨?_, ?_⟩, fun later after ranLater => ⟨?_, ?_, fun prepared => ?_⟩⟩
  · exact SymbolTable.mem_names_run_empty.1 (SymbolTable.reserved _ (ready prepared) form)
  · exact represents.intern_reserved (ready prepared) form
  · exact (represents.kept ranLater).1
  · intro name has
    exact (represents.kept ranLater).2 name (SymbolTable.mem_names_run_empty.2 has)
  · exact represents.reserved_kept (ready prepared) ranLater

/-- A reserved name that arrives before the preparation, a program that is
refused for want of it, and a datum that breaks off after its first name. -/
theorem run_numbers_until_broken_off :
    let calls : List TableCall :=
      [.intern (Bytes.ofText "loop"), .program (.ofText (Bytes.ofText "lost")), .prepare,
        .datum (Bytes.ofText "(kept")]
    Exists fun store => empty.run calls = pure store ∧ store.size = 9 ∧
      store.contains (Bytes.ofText "kept") = pure true ∧
        store.contains (Bytes.ofText "lost") = pure false ∧
          store.intern (Bytes.ofText "loop") = pure (store.reserved (.scope .loop), store) ∧
            store.nameOf 9 = [] := by
  intro calls
  have few : (TableCall.arrivals false calls).toFinset.card = 9 := by decide +kernel
  rcases (run_numbers_until_wrapped calls).1 (by rw [few]; decide) with
    ⟨store, done, numbers, noted, _⟩
  have sized : store.size = 9 := UInt32.toNat_inj.1 (numbers.size_eq.trans few)
  refine ⟨store, done, sized, (numbers.contains_eq _).trans ?_,
    (numbers.contains_eq _).trans ?_, (noted (by simp [calls]) (.scope .loop)).2,
    numbers.nameOf_beyond 9 (by rw [sized]; decide)⟩
  · exact congrArg pure (by decide +kernel)
  · exact congrArg pure (by decide +kernel)

/-- Names that are told apart by their lengths. -/
def tallies (count : Nat) : List Bytes :=
  (List.range count).map fun length => List.replicate length 97

theorem card_tallies (count : Nat) : (tallies count).toFinset.card = count := by
  have distinct : (tallies count).Nodup := by
    apply List.Nodup.map _ List.nodup_range
    intro length other same
    simpa using congrArg List.length same
  rw [List.toFinset_card_of_nodup distinct, tallies, List.length_map, List.length_range]

/-- Far fewer names than there are ids break a store. -/
theorem not_all_numbered :
    ¬ forall calls : List TableCall,
      (TableCall.arrivals false calls).toFinset.card < idLimit.toNat ->
        Exists fun store => empty.run calls = pure store := by
  intro numbered
  let calls := (tallies 1610612737).map TableCall.intern
  have arrived : TableCall.arrivals false calls = tallies 1610612737 :=
    TableCall.arrivals_map_intern false _
  have broken : empty.run calls = throw .divisionByZero := by
    apply (represents_empty.run calls).breaks
    rw [SymbolTable.size_run_empty, arrived, card_tallies]
    decide
  rcases numbered calls (by rw [arrived, card_tallies]; decide) with ⟨store, done⟩
  rw [broken] at done
  cases done

end SymbolStore

end TailLisp
