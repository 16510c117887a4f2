import TailLisp.Proofs.Concatenation
import TailLisp.Proofs.Reporting

namespace TailLisp

/-!
How far a reading comes.

Between the beginning of a text and the place where its reading stops lie whole
items and then the tokens of the item that is being read.  `Advances` follows a
reading over these tokens without asking what comes behind them, so it can be
continued in more than one way.  Where a reading fails, something stands that
its state refuses: a token, a flaw or the end of the text.

A token is refused whatever follows it.  The end of a text is not final in that
way: in every state some tokens lead out of all open forms.
-/

open ByteClass Grammar

namespace Progress

/-- The tokens take a reading from one place to another. -/
inductive Advances : Progress -> List Token -> Progress -> Prop
  | nil (progress) : Advances progress [] progress
  | cons {state around token step tokens last} :
      state.step token = .ok step ->
      Advances (step.action.apply around) tokens last ->
      Advances (.reading state around) (token :: tokens) last

/-- How many unfinished forms stand around the current one. -/
def depth : Progress -> Nat
  | reading _ around => around.length
  | finished _ => 0

namespace Advances

variable {progress last : Progress} {tokens : List Token}

theorem append {middle : Progress} {later : List Token} (first : progress.Advances tokens middle)
    (second : middle.Advances later last) : progress.Advances (tokens ++ later) last := by
  induction first with
  | nil => exact second
  | cons stepped _ inductionHypothesis => exact .cons stepped (inductionHypothesis second)

/-- Behind the tokens the reading goes on from the place they lead to. -/
theorem resume_eq (advanced : progress.Advances tokens last) {cursor ending : Cursor}
    (scanned : cursor.Scans tokens ending) :
    Exists fun names => progress.resume cursor = (last.resume ending).prepend names := by
  induction advanced generalizing cursor with
  | nil progress =>
      cases scanned
      exact ⟨[], rfl⟩
  | @cons state around token step tokens last stepped _ inductionHypothesis =>
      cases scanned with
      | cons found rest =>
          rcases inductionHypothesis rest with ⟨names, same⟩
          refine ⟨step.interned.toList ++ names, ?_⟩
          rw [resume, resume_token found stepped, same, Reading.prepend_prepend]

end Advances

end Progress

theorem Filled.depth_settle_le (filled : Filled) (around : List Hole) :
    (filled.settle around).depth <= around.length := by
  induction around generalizing filled with
  | nil => cases filled <;> exact Nat.le_refl _
  | cons hole around inductionHypothesis =>
      cases filled with
      | waiting state => exact Nat.le_refl _
      | complete tree => exact Nat.le_succ_of_le (inductionHypothesis (hole.fill tree))

/-- An action opens one form at most. -/
theorem Action.depth_apply_le (action : Action) (around : List Hole) :
    (action.apply around).depth <= around.length + 1 := by
  cases action with
  | settle filled => exact Nat.le_succ_of_le (filled.depth_settle_le around)
  | enter hole state => exact Nat.le_refl _

/-- A reading is nested no deeper than the number of tokens it has taken. -/
theorem Progress.Advances.depth_le {progress last : Progress} {tokens : List Token}
    (advanced : progress.Advances tokens last) : last.depth <= progress.depth + tokens.length := by
  induction advanced with
  | nil => exact Nat.le_refl _
  | @cons state around token step tokens last _ _ inductionHypothesis =>
      have opened := step.action.depth_apply_le around
      change _ <= around.length + (tokens.length + 1)
      omega

/-- Tokens that complete a form bring the completed tree to the forms around it. -/
theorem Action.Completes.advances {action : Action} {tokens : List Token} {tree : Tree}
    {names : List Bytes} (completed : action.Completes tokens tree names) (around : List Hole) :
    (action.apply around).Advances tokens ((Filled.complete tree).settle around) := by
  induction completed generalizing around with
  | complete tree => exact .nil _
  | @wait state token step tokens tree names stepped _ inductionHypothesis =>
      rw [Action.apply, Filled.settle_waiting]
      exact .cons stepped (inductionHypothesis around)
  | @enter hole inner tokens part names later tree laterNames _ _ inside outside =>
      have entered := inside (hole :: around)
      rw [Action.apply, Filled.settle_waiting] at entered
      exact entered.append (outside around)

/-! ## Where a reading fails -/

/-- What stands at the cursor is refused in the state, with the fault. -/
inductive State.Refuses (state : State) (cursor : Cursor) : Fault -> Prop
  | token {token after fault} :
      cursor.next = (.token token, after) ->
      state.step token = .error fault ->
      Refuses state cursor fault
  | flaw {pos error after} :
      cursor.next = (.flaw pos error, after) ->
      Refuses state cursor { origin := pos, cause := .scan error }
  | finish {pos after} :
      cursor.next = (.finish pos, after) ->
      Refuses state cursor (state.faultAtEnd pos)

namespace State.Refuses

variable {state : State} {cursor other : Cursor} {fault : Fault}

/-- Only what is found next matters. -/
theorem of_next_eq (refused : state.Refuses cursor fault) (same : cursor.next = other.next) :
    state.Refuses other fault := by
  cases refused with
  | token found failed => exact .token (same.symm.trans found) failed
  | flaw found => exact .flaw (same.symm.trans found)
  | finish found => exact .finish (same.symm.trans found)

theorem resume_outcome (refused : state.Refuses cursor fault) (around : List Hole) :
    (Reader.resume state around cursor).outcome = .error fault := by
  rw [Reader.resume_eq]
  cases refused with
  | token found failed => simp only [found, failed]
  | flaw found => simp only [found]
  | finish found => simp only [found]

end State.Refuses

namespace Reader

/-- A reading that fails comes to a state that refuses what stands there. -/
theorem exists_refuses {state : State} {around : List Hole} {cursor : Cursor} {fault : Fault}
    (failed : (resume state around cursor).outcome = .error fault) :
    Exists fun tokens => Exists fun last => Exists fun outer => Exists fun ending =>
      cursor.Scans tokens ending ∧
      (Progress.reading state around).Advances tokens (.reading last outer) ∧
        last.Refuses ending fault := by
  fun_induction resume state around cursor with
  | case1 state around cursor pos after found =>
      cases failed
      exact ⟨[], state, around, cursor, .nil _, .nil _, .finish found⟩
  | case2 state around cursor pos error after found =>
      cases failed
      exact ⟨[], state, around, cursor, .nil _, .nil _, .flaw found⟩
  | case3 state around cursor token after found other stepped =>
      cases failed
      exact ⟨[], state, around, cursor, .nil _, .nil _, .token found stepped⟩
  | case4 => cases failed
  | case5 state around cursor token after found step stepped next outer applied later
      inductionHypothesis =>
      rcases inductionHypothesis failed with ⟨tokens, last, outside, ending, scanned, advanced, refused⟩
      refine ⟨token :: tokens, last, outside, ending, .cons found scanned, .cons stepped ?_, refused⟩
      rw [applied]
      exact advanced

/-- The reading of a text has come to a state: it has taken some whole items,
and then some tokens of the next one. -/
def ComesTo (slot : Slot) (cursor : Cursor) (state : State) (around : List Hole)
    (ending : Cursor) : Prop :=
  Exists fun parts : List Passage => Exists fun tokens : List Token =>
    (forall part, part ∈ parts -> Item slot part.tokens part.tree) ∧
      cursor.Scans (parts.flatMap Passage.tokens ++ tokens) ending ∧
        (Progress.reading (.start slot) []).Advances tokens (.reading state around)

/-- A text with a fault is read up to a state that refuses what stands there. -/
theorem exists_comesTo_of_fault {slot : Slot} {cursor : Cursor} {fault : Fault}
    (failed : (readAll slot cursor).fault = some fault) :
    Exists fun state => Exists fun around => Exists fun ending =>
      ComesTo slot cursor state around ending ∧
      state.Refuses ending fault := by
  fun_induction readAll slot cursor with
  | case1 cursor first found stopped =>
      cases failed
      rcases exists_refuses stopped with ⟨tokens, last, outer, ending, scanned, advanced, refused⟩
      exact ⟨last, outer, ending, ⟨[], tokens, List.forall_mem_nil _, scanned, advanced⟩, refused⟩
  | case2 => cases failed
  | case3 cursor first tree done after more later inductionHypothesis =>
      rcases read_outcome_eq_ok done with ⟨_, taken, scanned, item⟩
      rcases inductionHypothesis failed with
        ⟨state, around, ending, ⟨parts, tokens, items, others, advanced⟩, refused⟩
      have longer (ending : Cursor)
          (rest : first.cursor.Scans (parts.flatMap Passage.tokens ++ tokens) ending) :
          ComesTo slot cursor state around ending := by
        refine ⟨⟨taken, tree⟩ :: parts, tokens, List.forall_mem_cons.2 ⟨item, items⟩, ?_, advanced⟩
        rw [List.flatMap_cons, List.append_assoc]
        exact scanned.append rest
      -- Blank text before the next item counts only where a token follows it.
      by_cases nothing : parts.flatMap Passage.tokens ++ tokens = []
      · rw [nothing] at others longer
        cases others
        exact ⟨state, around, first.cursor, longer _ (.nil _),
          refused.of_next_eq (Cursor.next_skipBlank _)⟩
      · exact ⟨state, around, ending, longer ending ((Cursor.scans_skipBlank nothing).1 others),
          refused⟩

end Reader

end TailLisp
