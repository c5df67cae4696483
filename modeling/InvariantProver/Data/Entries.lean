namespace InvariantProver

abbrev Entries (κ α : Type) := List (κ × α)

namespace Entries

variable {κ α : Type} [DecidableEq κ]

/-- Gives a key a value. A key that has one keeps its place. -/
def put (key : κ) (value : α) : Entries κ α → Entries κ α
  | [] => [(key, value)]
  | (k, v) :: rest => if k = key then (key, value) :: rest else (k, v) :: put key value rest

def ofList (pairs : List (κ × α)) : Entries κ α :=
  pairs.foldl (fun entries (key, value) => put key value entries) []

def get? (key : κ) : Entries κ α → Option α
  | [] => none
  | (k, v) :: rest => if k = key then some v else get? key rest

def keys (entries : Entries κ α) : List κ := entries.map Prod.fst

theorem get?_put (key : κ) (value : α) (k : κ) (entries : Entries κ α) :
    get? k (put key value entries) = if key = k then some value else get? k entries := by
  induction entries with
  | nil => simp [put, get?]
  | cons entry rest ih => grind [put, get?]

theorem get?_eq_none_iff (key : κ) (entries : Entries κ α) :
    get? key entries = none ↔ key ∉ keys entries := by
  induction entries with
  | nil => simp [get?, keys]
  | cons entry rest ih => grind [get?, keys]

end Entries

end InvariantProver
