import Mathlib.Init

/-!
# Postconditions of fallible computations

A computation meets a postcondition when it ends in a value that has it, or stops with a
fault that is allowed.
-/

namespace TelegraphCQ.Foundation

def Ends {Fault Value : Type*} (Allowed : Fault → Prop) (Post : Value → Prop) :
    Except Fault Value → Prop
  | .error fault => Allowed fault
  | .ok value => Post value

namespace Ends

variable {Fault Value Result : Type} {Allowed : Fault → Prop} {Post : Value → Prop}
  {Final : Result → Prop} {computation : Except Fault Value}

theorem bind {next : Value → Except Fault Result} (first : Ends Allowed Post computation)
    (then_ : ∀ value, Post value → Ends Allowed Final (next value)) :
    Ends Allowed Final (computation >>= next) := by
  cases computation with
  | error fault => exact first
  | ok value => exact then_ value first

theorem imp {Weaker : Value → Prop} (ends : Ends Allowed Post computation)
    (implies : ∀ value, Post value → Weaker value) : Ends Allowed Weaker computation := by
  cases computation with
  | error fault => exact ends
  | ok value => exact implies value ends

end Ends

theorem exists_of_bind_ok {Fault Value Result : Type} {computation : Except Fault Value}
    {next : Value → Except Fault Result} {result : Result}
    (ran : computation >>= next = .ok result) :
    ∃ value, computation = .ok value ∧ next value = .ok result := by
  cases computation with
  | error fault => cases ran
  | ok value => exact ⟨value, rfl, ran⟩

end TelegraphCQ.Foundation
