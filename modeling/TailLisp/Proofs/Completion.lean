import TailLisp.Proofs.Scanning
import TailLisp.Reader.Reading

namespace TailLisp

/-!
Completing a form.

The reader keeps the unfinished forms on a stack and takes one token at a
time.  What happens to one form does not depend on the forms around it, so a
successful reading can be told form by form: an action, some tokens, and the
tree that they complete.  The stack appears only where a nested form is
entered, and there only as the one hole that the nested form fills.

The account is exact.  Tokens complete at most one tree, and the tokens after
which a reading succeeds are precisely those that complete it.  The names on
the way are counted along, because a symbol table receives them in this order.
-/

/-- The tokens, read after the action, complete the form as the tree.  The
names are those that arrive at the symbol table meanwhile. -/
inductive Action.Completes : Action -> List Token -> Tree -> List Bytes -> Prop
  | complete (tree) : Completes (.settle (.complete tree)) [] tree []
  | wait {state token step tokens tree names} :
      state.step token = .ok step ->
      Completes step.action tokens tree names ->
      Completes (.settle (.waiting state)) (token :: tokens) tree
        (step.interned.toList ++ names)
  | enter {hole inner tokens part names later tree laterNames} :
      Completes (.settle (.waiting inner)) tokens part names ->
      Completes (.settle (hole.fill part)) later tree laterNames ->
      Completes (.enter hole inner) (tokens ++ later) tree (names ++ laterNames)

namespace Action.Completes

/-- No tokens complete a form before others do: of two beginnings of one
sequence that complete a form, both are the same. -/
theorem unique {action : Action} {tokens others rest remaining : List Token}
    {tree other : Tree} {names otherNames : List Bytes}
    (first : action.Completes tokens tree names)
    (second : action.Completes others other otherNames)
    (sequence : tokens ++ rest = others ++ remaining) :
    tokens = others ∧ tree = other ∧ names = otherNames := by
  induction first generalizing others other otherNames rest remaining with
  | complete tree =>
      cases second
      exact ⟨rfl, rfl, rfl⟩
  | wait stepped _ inductionHypothesis =>
      cases second with
      | wait alsoStepped later =>
          rw [List.cons_append, List.cons_append, List.cons.injEq] at sequence
          rw [← sequence.1, stepped, Except.ok.injEq] at alsoStepped
          rw [← alsoStepped] at later
          rcases inductionHypothesis later sequence.2 with ⟨sameTokens, sameTree, sameNames⟩
          rw [sequence.1, sameTokens, sameTree, sameNames, alsoStepped]
          exact ⟨rfl, rfl, rfl⟩
  | enter _ _ innerUnique outerUnique =>
      cases second with
      | enter otherInner otherOuter =>
          rw [List.append_assoc, List.append_assoc] at sequence
          rcases innerUnique otherInner sequence with ⟨sameTokens, samePart, sameNames⟩
          subst sameTokens samePart sameNames
          rcases outerUnique otherOuter (List.append_cancel_left sequence) with
            ⟨sameLater, sameTree, sameLaterNames⟩
          rw [sameLater, sameTree, sameLaterNames]
          exact ⟨rfl, rfl, rfl⟩

end Action.Completes

@[simp] theorem Filled.settle_waiting (state : State) (around : List Hole) :
    (waiting state).settle around = .reading state around := by
  cases around <;> rfl

namespace Reading

/-- The reading with some names before its own. -/
def prepend (names : List Bytes) (reading : Reading) : Reading :=
  { reading with names := names ++ reading.names }

theorem prepend_prepend (first second : List Bytes) (reading : Reading) :
    (reading.prepend second).prepend first = reading.prepend (first ++ second) := by
  rw [prepend, prepend, prepend, List.append_assoc]

end Reading

namespace Progress

/-- Goes on reading from where a reading has come to. -/
def resume : Progress -> Cursor -> Reading
  | reading state around, cursor => Reader.resume state around cursor
  | finished tree, cursor => { outcome := .ok tree, names := [], cursor := cursor }

/-- A token that the state takes is one step of the reading. -/
theorem resume_token {state : State} {token : Token} {step : Step} {cursor after : Cursor}
    (found : cursor.next = (.token token, after)) (stepped : state.step token = .ok step)
    (around : List Hole) :
    Reader.resume state around cursor =
      ((step.action.apply around).resume after).prepend step.interned.toList := by
  rw [Reader.resume]
  split
  · next pos ending alsoFound => simp [found] at alsoFound
  · next pos error ending alsoFound => simp [found] at alsoFound
  · next other ending alsoFound =>
      rw [found, Prod.mk.injEq, Scan.token.injEq] at alsoFound
      rw [← alsoFound.1, ← alsoFound.2, stepped]
      dsimp only
      cases step.action.apply around with
      | finished tree => simp [resume, Reading.prepend]
      | reading state around => rfl

end Progress

/-- Tokens that complete a form bring the reading to where the completed tree
goes into the forms around it. -/
theorem Action.Completes.resume_eq {action : Action} {tokens : List Token} {tree : Tree}
    {names : List Bytes} (completed : action.Completes tokens tree names)
    {cursor ending : Cursor} (scanned : cursor.Scans tokens ending) (around : List Hole) :
    (action.apply around).resume cursor =
      (((Filled.complete tree).settle around).resume ending).prepend names := by
  induction completed generalizing cursor ending around with
  | complete tree =>
      cases scanned
      rfl
  | wait stepped _ inductionHypothesis =>
      cases scanned with
      | cons found rest =>
          rw [Action.apply, Filled.settle_waiting, Progress.resume,
            Progress.resume_token found stepped, inductionHypothesis rest, Reading.prepend_prepend]
  | @enter hole inner tokens part names later tree laterNames _ _ innerRead outerRead =>
      rcases scanned.of_append with ⟨middle, before, after⟩
      have inside := innerRead before (hole :: around)
      have outside := outerRead after around
      rw [Action.apply, Filled.settle_waiting] at inside
      change ((Filled.complete part).settle (hole :: around)).resume middle = _ at outside
      rw [Action.apply, inside, outside, Reading.prepend_prepend]

/-- A reading that succeeds has completed its innermost form on the way. -/
theorem exists_completes {action : Action} {around : List Hole} {cursor : Cursor} {tree : Tree}
    (done : ((action.apply around).resume cursor).outcome = .ok tree) :
    Exists fun tokens => Exists fun part => Exists fun names => Exists fun ending =>
      action.Completes tokens part names ∧ cursor.Scans tokens ending ∧
      (((Filled.complete part).settle around).resume ending).outcome = .ok tree := by
  -- Each step leaves less text, and so does a nested form, which takes a token at least.
  induction size : cursor.rest.length using Nat.strongRecOn generalizing action around cursor with
  | ind length shorter =>
      have waiting (state : State) (around : List Hole)
          (done : (Reader.resume state around cursor).outcome = .ok tree) :
          Exists fun tokens => Exists fun part => Exists fun names => Exists fun ending =>
            Action.Completes (.settle (.waiting state)) tokens part names ∧
            cursor.Scans tokens ending ∧ tokens ≠ [] ∧
              (((Filled.complete part).settle around).resume ending).outcome = .ok tree := by
        cases found : cursor.next with
        | mk scan after =>
            cases scan with
            | finish pos =>
                rw [Reader.resume] at done
                split at done <;> simp_all
            | flaw pos error =>
                rw [Reader.resume] at done
                split at done <;> simp_all
            | token token =>
                cases stepped : state.step token with
                | error fault =>
                    rw [Reader.resume] at done
                    split at done <;> simp_all
                | ok step =>
                    rw [Progress.resume_token found stepped] at done
                    rcases shorter _ (size ▸ Cursor.length_next_lt_of_token found) done rfl with
                      ⟨tokens, part, names, ending, completed, scanned, rest⟩
                    exact ⟨token :: tokens, part, _, ending, .wait stepped completed,
                      .cons found scanned, List.cons_ne_nil _ _, rest⟩
      cases action with
      | settle filled =>
          cases filled with
          | complete part => exact ⟨[], part, [], cursor, .complete part, .nil cursor, done⟩
          | waiting state =>
              rw [Action.apply, Filled.settle_waiting] at done
              rcases waiting state around done with
                ⟨tokens, part, names, ending, completed, scanned, _, rest⟩
              exact ⟨tokens, part, names, ending, completed, scanned, rest⟩
      | enter hole inner =>
          rcases waiting inner (hole :: around) done with
            ⟨tokens, part, names, middle, completed, scanned, nonempty, rest⟩
          have taken := scanned.length_le
          have positive := List.length_pos_iff.2 nonempty
          have refilled :
              (((Action.settle (hole.fill part)).apply around).resume middle).outcome = .ok tree :=
            rest
          rcases shorter middle.rest.length (by omega) refilled rfl with
            ⟨later, whole, laterNames, ending, outer, scannedLater, outside⟩
          exact ⟨tokens ++ later, whole, names ++ laterNames, ending, .enter completed outer,
            scanned.append scannedLater, outside⟩

/-- An action with no form around it leads to a tree exactly on the tokens that
complete its form. -/
theorem Action.resume_eq_iff {action : Action} {cursor ending : Cursor} {tree : Tree}
    {names : List Bytes} :
    (action.apply []).resume cursor = { outcome := .ok tree, names := names, cursor := ending } ↔
      Exists fun tokens => cursor.Scans tokens ending ∧ action.Completes tokens tree names := by
  constructor
  · intro done
    rcases exists_completes (congrArg Reading.outcome done) with
      ⟨tokens, part, partNames, after, completed, scanned, _⟩
    have same := (completed.resume_eq scanned []).symm.trans done
    simp only [Filled.settle, Progress.resume, Reading.prepend, List.append_nil, Reading.mk.injEq,
      Except.ok.injEq] at same
    rcases same with ⟨sameTree, sameNames, sameCursor⟩
    subst sameTree sameNames sameCursor
    exact ⟨tokens, scanned, completed⟩
  · rintro ⟨tokens, scanned, completed⟩
    rw [completed.resume_eq scanned []]
    simp only [Filled.settle, Progress.resume, Reading.prepend, List.append_nil]

/-- Reading an item succeeds on the tokens that complete it, and on no others. -/
theorem Reader.read_eq_iff {slot : Slot} {cursor ending : Cursor} {tree : Tree}
    {names : List Bytes} :
    Reader.read slot cursor = { outcome := .ok tree, names := names, cursor := ending } ↔
      Exists fun tokens => cursor.Scans tokens ending ∧
        Action.Completes (.settle (.waiting (.start slot))) tokens tree names := by
  rw [← Action.resume_eq_iff, Action.apply, Filled.settle_waiting]
  rfl

end TailLisp
