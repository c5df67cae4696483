import InvariantProver.Data.Entries

namespace InvariantProver.Entries

variable {κ α : Type} [DecidableEq κ]

theorem mem_of_get? {entries : Entries κ α} {key : κ} {value : α}
    (h : get? key entries = some value) : (key, value) ∈ entries := by
  induction entries with
  | nil => cases h
  | cons entry rest ih =>
    unfold get? at h
    split at h
    · next hkey =>
      obtain rfl := Option.some.inj h
      simp [← hkey]
    · exact List.mem_cons_of_mem _ (ih h)

theorem put_of_not_mem {entries : Entries κ α} {key : κ} (h : key ∉ keys entries) (value : α) :
    put key value entries = entries ++ [(key, value)] := by
  induction entries with
  | nil => rfl
  | cons entry rest ih =>
    obtain ⟨hne, hrest⟩ : key ≠ entry.1 ∧ key ∉ keys rest := by simpa [keys] using h
    rw [put, if_neg hne.symm, ih hrest, List.cons_append]

theorem get?_foldl_put {pairs : List (κ × α)} {entries : Entries κ α} {key : κ} {value : α}
    (h : get? key (pairs.foldl (fun entries (k, v) => put k v entries) entries) = some value) :
    (key, value) ∈ pairs ∨ get? key entries = some value := by
  induction pairs generalizing entries with
  | nil => exact .inr h
  | cons pair pairs ih =>
    rcases ih h with hmem | hput
    · exact .inl (List.mem_cons_of_mem _ hmem)
    · rw [get?_put] at hput
      split at hput
      · next hkey =>
        obtain rfl := Option.some.inj hput
        exact .inl (by simp [← hkey])
      · exact .inr hput

theorem mem_of_get?_ofList {pairs : List (κ × α)} {key : κ} {value : α}
    (h : get? key (ofList pairs) = some value) : (key, value) ∈ pairs := by
  rcases get?_foldl_put h with hmem | hnone
  · exact hmem
  · cases hnone

theorem exists_get?_foldl_put {pairs : List (κ × α)} {entries : Entries κ α} {key : κ}
    (h : key ∈ pairs.map Prod.fst ∨ ∃ value, get? key entries = some value) :
    ∃ value, get? key (pairs.foldl (fun entries (k, v) => put k v entries) entries) = some value := by
  induction pairs generalizing entries with
  | nil => simpa using h
  | cons pair pairs ih =>
    refine ih ?_
    by_cases hkey : pair.1 = key
    · exact .inr ⟨pair.2, by rw [get?_put, if_pos hkey]⟩
    · rcases h with hmem | ⟨value, hvalue⟩
      · rw [List.map_cons, List.mem_cons] at hmem
        exact .inl (hmem.resolve_left fun he => hkey he.symm)
      · exact .inr ⟨value, by rw [get?_put, if_neg hkey, hvalue]⟩

theorem exists_get?_ofList {pairs : List (κ × α)} {key : κ} (h : key ∈ pairs.map Prod.fst) :
    ∃ value, get? key (ofList pairs) = some value :=
  exists_get?_foldl_put (.inl h)

theorem get?_foldl_put_of_not_mem {pairs : List (κ × α)} {entries : Entries κ α} {key : κ}
    (h : key ∉ pairs.map Prod.fst) :
    get? key (pairs.foldl (fun entries (k, v) => put k v entries) entries) = get? key entries := by
  induction pairs generalizing entries with
  | nil => rfl
  | cons pair pairs ih =>
    obtain ⟨hne, hrest⟩ : key ≠ pair.1 ∧ key ∉ pairs.map Prod.fst := by simpa using h
    rw [List.foldl_cons, ih hrest, get?_put, if_neg hne.symm]

theorem get?_ofList_last {before after : List (κ × α)} {key : κ} {value : α}
    (h : key ∉ after.map Prod.fst) :
    get? key (ofList (before ++ (key, value) :: after)) = some value := by
  rw [ofList, List.foldl_append, List.foldl_cons, get?_foldl_put_of_not_mem h, get?_put, if_pos rfl]

theorem keys_put (key : κ) (value : α) (entries : Entries κ α) :
    keys (put key value entries) =
      if key ∈ keys entries then keys entries else keys entries ++ [key] := by
  induction entries with
  | nil => rfl
  | cons entry rest ih => grind [put, keys]

theorem nodup_keys_ofList (pairs : List (κ × α)) : (keys (ofList pairs)).Nodup := by
  suffices h : ∀ entries : Entries κ α, (keys entries).Nodup →
      (keys (pairs.foldl (fun entries (k, v) => put k v entries) entries)).Nodup from h [] List.nodup_nil
  induction pairs with
  | nil => exact fun entries h => h
  | cons pair pairs ih =>
    intro entries h
    apply ih
    rw [keys_put]
    split
    · exact h
    · next hnew =>
      refine List.nodup_append.mpr ⟨h, by simp, fun key hkey other hother => ?_⟩
      obtain rfl := List.mem_singleton.mp hother
      rintro rfl
      exact hnew hkey

theorem get?_of_mem {entries : Entries κ α} (h : (keys entries).Nodup) {key : κ} {value : α}
    (hmem : (key, value) ∈ entries) : get? key entries = some value := by
  induction entries with
  | nil => cases hmem
  | cons entry rest ih =>
    obtain ⟨hnew, hrest⟩ := List.nodup_cons.mp h
    unfold get?
    rcases List.mem_cons.mp hmem with rfl | hmem
    · exact if_pos rfl
    · rw [if_neg, ih hrest hmem]
      rintro rfl
      exact hnew (List.mem_map.mpr ⟨_, hmem, rfl⟩)

end InvariantProver.Entries
