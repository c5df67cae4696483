namespace InvariantProver

variable {ε σ α : Type}

def ensuring (body : ExceptT ε (StateM σ) α) (cleanup : ExceptT ε (StateM σ) Unit) :
    ExceptT ε (StateM σ) α := fun s =>
  let (result, s) := body.run s
  match cleanup.run s with
  | (.ok (), s) => (result, s)
  | (.error e, s) => (.error e, s)

end InvariantProver
