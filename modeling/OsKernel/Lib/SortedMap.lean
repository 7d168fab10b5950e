import Mathlib

/-! # Finite maps as key-sorted association lists

An ordered map (such as a B-tree map) seen through its entries: a list of
key-value pairs whose keys increase strictly, so that iteration is in key
order.  `insert` and `remove` also return the value they displace, which the
caller may have to release.
-/

namespace SortedMap

variable {κ ν : Type*} [LinearOrder κ]

/-- The value stored under `key`. -/
def get? : List (κ × ν) → κ → Option ν
  | [], _ => none
  | (k, v) :: rest, key => if key = k then some v else get? rest key

/-- Store `value` under `key`, keeping the keys sorted; returns the value that
    was stored under `key` before, if any. -/
def insert : List (κ × ν) → κ → ν → List (κ × ν) × Option ν
  | [], key, value => ([(key, value)], none)
  | (k, v) :: rest, key, value =>
      if key < k then ((key, value) :: (k, v) :: rest, none)
      else if key = k then ((key, value) :: rest, some v)
      else
        let (rest', old) := insert rest key value
        ((k, v) :: rest', old)

/-- Remove the entry of `key`; returns the value it held, if any. -/
def remove : List (κ × ν) → κ → List (κ × ν) × Option ν
  | [], _ => ([], none)
  | (k, v) :: rest, key =>
      if key = k then (rest, some v)
      else
        let (rest', old) := remove rest key
        ((k, v) :: rest', old)

@[simp] theorem get?_nil (key : κ) : get? ([] : List (κ × ν)) key = none := rfl

theorem get?_insert (m : List (κ × ν)) (key other : κ) (value : ν) :
    get? (insert m key value).1 other = if other = key then some value else get? m other := by
  induction m with
  | nil => simp [insert, get?]
  | cons entry rest ih =>
      obtain ⟨k, v⟩ := entry
      simp only [insert]
      by_cases hlt : key < k
      · simp only [hlt, if_true, get?]
      · by_cases heq : key = k
        · subst heq
          simp only [lt_irrefl, if_false, if_true, get?]
          by_cases ho : other = key <;> simp [ho]
        · simp only [hlt, heq, if_false, get?, ih]
          by_cases ho : other = key
          · subst ho
            simp [heq]
          · simp [ho]

theorem insert_snd_of_get?_eq_none {m : List (κ × ν)} {key : κ} (value : ν)
    (h : get? m key = none) : (insert m key value).2 = none := by
  induction m with
  | nil => rfl
  | cons entry rest ih =>
      obtain ⟨k, v⟩ := entry
      have hne : key ≠ k := by
        rintro rfl
        simp [get?] at h
      have hrest : get? rest key = none := by simpa [get?, hne] using h
      by_cases hlt : key < k
      · simp [insert, hlt]
      · simp [insert, hlt, hne, ih hrest]

theorem remove_snd (m : List (κ × ν)) (key : κ) : (remove m key).2 = get? m key := by
  induction m with
  | nil => rfl
  | cons entry rest ih =>
      obtain ⟨k, v⟩ := entry
      by_cases heq : key = k
      · simp [remove, get?, heq]
      · simp [remove, get?, heq, ih]

theorem get?_remove_of_ne (m : List (κ × ν)) {key other : κ} (hne : other ≠ key) :
    get? (remove m key).1 other = get? m other := by
  induction m with
  | nil => rfl
  | cons entry rest ih =>
      obtain ⟨k, v⟩ := entry
      by_cases heq : key = k
      · subst heq
        simp [remove, get?, hne]
      · by_cases ho : other = k
        · simp [remove, get?, heq, ho]
        · simp [remove, get?, heq, ho, ih]

theorem mem_of_get?_eq_some {m : List (κ × ν)} {key : κ} {value : ν} (h : get? m key = some value) :
    (key, value) ∈ m := by
  induction m with
  | nil => cases h
  | cons entry rest ih =>
      obtain ⟨k, v⟩ := entry
      by_cases hk : key = k
      · simp only [get?, hk, if_true, Option.some.injEq] at h
        simp [hk, h]
      · simp only [get?, hk, if_false] at h
        exact List.mem_cons_of_mem _ (ih h)

/-! ## Maps built by inserting the entries of a list -/

section Fold

variable {α ν' : Type*}

theorem insert_map (m : List (κ × ν)) (key : κ) (value : ν) (g : ν → ν') :
    (insert (m.map (Prod.map id g)) key (g value)).1 = (insert m key value).1.map (Prod.map id g) := by
  induction m with
  | nil => rfl
  | cons entry rest ih =>
      obtain ⟨k, v⟩ := entry
      by_cases hlt : key < k
      · simp [insert, hlt]
      · by_cases heq : key = k
        · simp [insert, heq]
        · simp [insert, hlt, heq, ih]

theorem get?_map (m : List (κ × ν)) (key : κ) (g : ν → ν') :
    get? (m.map (Prod.map id g)) key = (get? m key).map g := by
  induction m with
  | nil => rfl
  | cons entry rest ih =>
      obtain ⟨k, v⟩ := entry
      by_cases hk : key = k <;> simp [get?, hk, ih]

theorem foldl_insert_map (key : α → κ) (value : α → ν) (g : ν → ν') :
    ∀ (xs : List α) (m : List (κ × ν)),
      xs.foldl (fun m x => (insert m (key x) (g (value x))).1) (m.map (Prod.map id g)) =
        (xs.foldl (fun m x => (insert m (key x) (value x)).1) m).map (Prod.map id g) := by
  intro xs
  induction xs with
  | nil => intro m; rfl
  | cons x xs ih =>
      intro m
      simp only [List.foldl_cons, insert_map, ih]

theorem get?_foldl_insert_self (key : α → κ) {xs items : List α} (hxs : ∀ x ∈ xs, x ∈ items)
    {m : List (κ × α)} (hm : ∀ k y, get? m k = some y → key y = k ∧ y ∈ items) {k : κ} {x : α}
    (h : get? (xs.foldl (fun m x => (insert m (key x) x).1) m) k = some x) : key x = k ∧ x ∈ items := by
  induction xs generalizing m with
  | nil => exact hm k x h
  | cons y ys ih =>
      refine ih (fun z hz => hxs z (List.mem_cons_of_mem y hz)) (fun k' z hz => ?_) h
      rw [get?_insert] at hz
      split at hz
      · rename_i hk
        cases hz
        exact ⟨hk.symm, hxs _ List.mem_cons_self⟩
      · exact hm k' z hz

theorem get?_foldl_insert_isSome (key : α → κ) (value : α → ν) {xs : List α} {x : α} (hx : x ∈ xs)
    (m : List (κ × ν)) : (get? (xs.foldl (fun m x => (insert m (key x) (value x)).1) m) (key x)).isSome := by
  induction xs generalizing m with
  | nil => cases hx
  | cons y ys ih =>
      rw [List.foldl_cons]
      by_cases hin : x ∈ ys
      · exact ih hin _
      · have hxy : x = y := (List.mem_cons.mp hx).resolve_right hin
        subst hxy
        suffices hkeep : ∀ (zs : List α) (m' : List (κ × ν)), (get? m' (key x)).isSome →
            (get? (zs.foldl (fun m x => (insert m (key x) (value x)).1) m') (key x)).isSome from
          hkeep ys _ (by rw [get?_insert, if_pos rfl]; rfl)
        intro zs
        induction zs with
        | nil => exact fun _ h => h
        | cons z zs ihz =>
            intro m' h
            refine ihz _ ?_
            rw [get?_insert]
            split
            · rfl
            · exact h

end Fold

end SortedMap
