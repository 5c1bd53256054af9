import LiveStyle.Tree.Build

/-! # Building only adds to the log

What is built never depends on the log, and what was in the log stays in front of what
the build adds.  So a build can be studied from an empty log.
-/
namespace LiveStyle.Node

private theorem ofResult_log (call : Term) (result : Except BuildError Node) (log : Log) :
    ofResult call result log =
      ((ofResult call result #[]).1, log ++ (ofResult call result #[]).2) := by
  cases result <;> simp [ofResult]

theorem ofEnvironment_log (arguments : List (List Term)) (log : Log) :
    ofEnvironment arguments log =
      ((ofEnvironment arguments #[]).1, log ++ (ofEnvironment arguments #[]).2) := by
  simp only [ofEnvironment]
  split <;> simp

mutual

theorem ofTerm_log (policy : DivisionPolicy) : ∀ (term : Term) (log : Log),
    ofTerm policy term log = ((ofTerm policy term #[]).1, log ++ (ofTerm policy term #[]).2)
  | .number _, _ | .identifier _, _ | .operator _, _ => by simp [ofTerm]
  | .call name arguments, log => by
    simp only [ofTerm]
    split
    · exact ofCalculation_log policy name arguments log
    · exact ofEnvironment_log arguments log
    · simp

theorem ofCalculation_log (policy : DivisionPolicy) (name : String) :
    ∀ (arguments : List (List Term)) (log : Log),
      ofCalculation policy name arguments log =
        ((ofCalculation policy name arguments #[]).1,
          log ++ (ofCalculation policy name arguments #[]).2)
  | [terms], log => by
    simp only [ofCalculation]
    rw [foldTight_log policy terms [] (log.push _),
      foldTight_log policy terms [] ((#[] : Log).push _), ofResult_log, ofResult_log _ _ (_ ++ _)]
    simp
  | [], log | _ :: _ :: _, log => by
    simp only [ofCalculation]
    rw [ofResult_log, ofResult_log _ _ ((#[] : Log).push _)]
    simp

theorem foldTight_log (policy : DivisionPolicy) :
    ∀ (terms : List Term) (stack : List Slot) (log : Log),
      foldTight policy terms stack log =
        ((foldTight policy terms stack #[]).1, log ++ (foldTight policy terms stack #[]).2)
  | [], _, _ => by simp [foldTight]
  | term :: terms, stack, log => by
    have built := ofTerm_log policy term log
    cases hgap : Slot.gap stack with
    | error error => cases term <;> simp [foldTight, hgap]
    | ok gap =>
      have rest (slot : Slot) (first : Log) :
          (match gap.fill policy slot with
            | .error error => (Except.error error, log ++ first)
            | .ok stack => foldTight policy terms stack (log ++ first)) =
          ((match gap.fill policy slot with
              | .error error => (Except.error error, first)
              | .ok stack => foldTight policy terms stack first).1,
            log ++ (match gap.fill policy slot with
              | .error error => (Except.error error, first)
              | .ok stack => foldTight policy terms stack first).2) := by
        cases gap.fill policy slot with
        | error error => rfl
        | ok stack =>
          simp only
          rw [foldTight_log policy terms stack (log ++ first),
            foldTight_log policy terms stack first]
          simp
      cases term <;> simp only [foldTight, hgap]
      case operator symbol => exact Array.append_empty ▸ rest (.operator symbol) #[]
      all_goals rw [built]; exact rest _ _

end

end LiveStyle.Node
