/-!
# Results with what was put out on the way

A `Traced` computation ends in a value or an error.  What it puts out before it
ends is kept in order, also when it fails.
-/

namespace Cassette

/-- The outputs of a computation, in order, and how it ended. -/
structure Traced (ω ε α : Type) where
  outputs : List ω
  result : Except ε α

namespace Traced

variable {ω ε α β : Type}

instance : Monad (Traced ω ε) where
  pure value := ⟨[], .ok value⟩
  bind first next :=
    match first.result with
    | .ok value => ⟨first.outputs ++ (next value).outputs, (next value).result⟩
    | .error error => ⟨first.outputs, .error error⟩

def emit (output : ω) : Traced ω ε Unit :=
  ⟨[output], .ok ()⟩

/-- Fails without putting anything out. -/
def fail (error : ε) : Traced ω ε α :=
  ⟨[], .error error⟩

/-- Ends as given without putting anything out. -/
def ofExcept (result : Except ε α) : Traced ω ε α :=
  ⟨[], result⟩

/-- Renames the outputs and the errors. -/
def relabel {ω' ε' : Type} (onOutput : ω → ω') (onError : ε → ε')
    (computation : Traced ω ε α) : Traced ω' ε' α :=
  ⟨computation.outputs.map onOutput, computation.result.mapError onError⟩

@[simp]
theorem pure_eq (value : α) : (pure value : Traced ω ε α) = ⟨[], .ok value⟩ := rfl

@[simp]
theorem ok_bind (outputs : List ω) (value : α) (next : α → Traced ω ε β) :
    ((⟨outputs, .ok value⟩ : Traced ω ε α) >>= next) =
      ⟨outputs ++ (next value).outputs, (next value).result⟩ := rfl

@[simp]
theorem error_bind (outputs : List ω) (error : ε) (next : α → Traced ω ε β) :
    ((⟨outputs, .error error⟩ : Traced ω ε α) >>= next) = ⟨outputs, .error error⟩ := rfl

@[simp]
theorem emit_bind (output : ω) (next : Unit → Traced ω ε β) :
    (emit output >>= next) = ⟨output :: (next ()).outputs, (next ()).result⟩ := rfl

instance : LawfulMonad (Traced ω ε) :=
  LawfulMonad.mk' (Traced ω ε)
    (fun ⟨_, result⟩ => by cases result <;> simp [Functor.map])
    (fun _ _ => rfl)
    (fun ⟨_, result⟩ next _ => by
      cases result with
      | error error => rfl
      | ok value => cases h : (next value).result <;> simp [bind, h])

end Traced

end Cassette
