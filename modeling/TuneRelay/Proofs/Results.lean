/-!
# Results and what is done with them

What is done with a result that is no fault takes none of its faults away, and only a further step
can add to them.
-/
namespace TuneRelay

variable {ε α β : Type} {f : α → β} {result : Except ε α}

theorem map_eq_ok_iff {b : β} : result.map f = .ok b ↔ ∃ a, result = .ok a ∧ b = f a := by
  cases result with
  | error fault => simp [Except.map]
  | ok a => simp [Except.map, eq_comm]

theorem map_eq_error_iff {fault : ε} : result.map f = .error fault ↔ result = .error fault := by
  cases result with
  | error fault => simp [Except.map]
  | ok a => simp [Except.map]

theorem exists_map_eq_error :
    (∃ fault, result.map f = .error fault) ↔ ∃ fault, result = .error fault := by
  simp only [map_eq_error_iff]

theorem bind_eq_ok_iff {next : α → Except ε β} {b : β} :
    result.bind next = .ok b ↔ ∃ a, result = .ok a ∧ next a = .ok b := by
  cases result with
  | error fault => simp [Except.bind]
  | ok a => simp [Except.bind]

theorem exists_bind_eq_error {next : α → Except ε β} :
    (∃ fault, result.bind next = .error fault) ↔ (∃ fault, result = .error fault) ∨
      ∃ a, result = .ok a ∧ ∃ fault, next a = .error fault := by
  cases result with
  | error fault => simp [Except.bind]
  | ok a => simp [Except.bind]

end TuneRelay
