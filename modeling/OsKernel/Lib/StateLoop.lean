import Mathlib

/-! # Loops of a state-passing program that may abort

Code that threads a global state and may panic is a computation in
`StateT σ Option`; a `for` loop over a list is `List.foldlM` (or `forM` when the
loop has no accumulator).  The rules below take such a loop apart: how one run
of a bind decomposes, and the invariant rule for a whole loop.
-/

namespace StateLoop

variable {σ α β γ : Type _}

theorem bind_eq_some {x : StateT σ Option α} {f : α → StateT σ Option β} {s s' : σ} {b : β} :
    (x >>= f) s = some (b, s') ↔ ∃ a mid, x s = some (a, mid) ∧ f a mid = some (b, s') := by
  change (x s).bind (fun p => f p.1 p.2) = some (b, s') ↔ _
  constructor
  · intro h
    obtain ⟨⟨a, mid⟩, hx, hf⟩ := Option.bind_eq_some_iff.mp h
    exact ⟨a, mid, hx, hf⟩
  · rintro ⟨a, mid, hx, hf⟩
    simp [hx, hf]

@[simp] theorem pure_eq_some {a b : α} {s s' : σ} :
    (pure a : StateT σ Option α) s = some (b, s') ↔ a = b ∧ s = s' := by
  change some (a, s) = some (b, s') ↔ _
  simp

@[simp] theorem failure_ne_some {s s' : σ} {b : α} :
    (failure : StateT σ Option α) s ≠ some (b, s') := by
  intro h
  cases h

@[simp] theorem lift_eq_some {o : Option α} {s s' : σ} {a : α} :
    (StateT.lift o : StateT σ Option α) s = some (a, s') ↔ o = some a ∧ s = s' := by
  change (o >>= fun b => some (b, s)) = some (a, s') ↔ _
  cases o <;> simp [and_comm, eq_comm]

theorem bind_eq_none_of_eq_none {x : StateT σ Option α} {f : α → StateT σ Option β} {s : σ}
    (hx : x s = none) : (x >>= f) s = none := by
  change (x s).bind _ = none
  rw [hx]
  rfl

theorem bind_of_eq_some {x : StateT σ Option α} {f : α → StateT σ Option β} {s mid : σ} {a : α}
    (hx : x s = some (a, mid)) : (x >>= f) s = f a mid := by
  change (x s).bind _ = _
  rw [hx]
  rfl

theorem lift_some_bind (a : α) (f : α → StateT σ Option β) :
    StateT.lift (some a) >>= f = f a :=
  rfl

theorem map_bind_of_map {δ : Type _} {x : StateT σ Option α} {y : StateT σ Option β}
    {f : α → StateT σ Option γ} {g : β → StateT σ Option δ} (π : α → β) (η : γ × σ → δ × σ)
    {s : σ} (hxy : (x s).map (fun r => (π r.1, r.2)) = y s)
    (hfg : ∀ a s', (f a s').map η = g (π a) s') : ((x >>= f) s).map η = (y >>= g) s := by
  change ((x s).bind fun r => f r.1 r.2).map η = (y s).bind fun r => g r.1 r.2
  rw [← hxy, Option.map_bind, Option.bind_map]
  congr 1
  funext r
  exact hfg r.1 r.2

theorem map_bind_congr {x : StateT σ Option α} {f : α → StateT σ Option β}
    {g : α → StateT σ Option γ} {η : β × σ → γ × σ} (hfg : ∀ a s', (f a s').map η = g a s')
    (s : σ) : ((x >>= f) s).map η = (x >>= g) s :=
  map_bind_of_map id η (by cases x s <;> rfl) hfg

@[simp] theorem foldlM_nil_eq_some {f : β → α → StateT σ Option β} {b r : β} {s s' : σ} :
    ([] : List α).foldlM f b s = some (r, s') ↔ b = r ∧ s = s' :=
  pure_eq_some

theorem foldlM_cons_eq_some {f : β → α → StateT σ Option β} {x : α} {xs : List α} {b r : β}
    {s s' : σ} :
    (x :: xs).foldlM f b s = some (r, s') ↔
      ∃ b₁ s₁, f b x s = some (b₁, s₁) ∧ xs.foldlM f b₁ s₁ = some (r, s') := by
  rw [List.foldlM_cons]
  exact bind_eq_some

theorem foldlM_invariant (f : β → α → StateT σ Option β) (inv : β → σ → Prop) {xs : List α}
    (hstep : ∀ b x s b' s', x ∈ xs → inv b s → f b x s = some (b', s') → inv b' s') :
    ∀ {b s r s'}, inv b s → xs.foldlM f b s = some (r, s') → inv r s' := by
  induction xs with
  | nil =>
      intro b s r s' hinv hrun
      obtain ⟨rfl, rfl⟩ := foldlM_nil_eq_some.mp hrun
      exact hinv
  | cons x xs ih =>
      intro b s r s' hinv hrun
      obtain ⟨b₁, s₁, hx, hrest⟩ := foldlM_cons_eq_some.mp hrun
      have hinv₁ := hstep b x s b₁ s₁ List.mem_cons_self hinv hx
      exact ih (fun b y s b' s' hy => hstep b y s b' s' (List.mem_cons_of_mem x hy)) hinv₁ hrest


theorem foldlM_forall_mem (f : β → α → StateT σ Option β) (inv : β → σ → Prop)
    (done : α → β → σ → Prop) {xs : List α}
    (hstep : ∀ b x s b' s', x ∈ xs → inv b s → f b x s = some (b', s') → inv b' s' ∧ done x b' s')
    (hkeep : ∀ b x y s b' s', x ∈ xs → inv b s → done y b s → f b x s = some (b', s') →
      done y b' s') :
    ∀ {b s r s'}, inv b s → xs.foldlM f b s = some (r, s') → inv r s' ∧ ∀ x ∈ xs, done x r s' := by
  induction xs with
  | nil =>
      intro b s r s' hinv hrun
      obtain ⟨rfl, rfl⟩ := foldlM_nil_eq_some.mp hrun
      exact ⟨hinv, fun x hx => absurd hx List.not_mem_nil⟩
  | cons x xs ih =>
      intro b s r s' hinv hrun
      obtain ⟨b₁, s₁, hx, hrest⟩ := foldlM_cons_eq_some.mp hrun
      obtain ⟨hinv₁, hdone₁⟩ := hstep b x s b₁ s₁ List.mem_cons_self hinv hx
      have hrest' := foldlM_invariant f (fun b s => inv b s ∧ done x b s)
        (fun b y s b' s' hy hbs hf =>
          ⟨(hstep b y s b' s' (List.mem_cons_of_mem x hy) hbs.1 hf).1,
            hkeep b y x s b' s' (List.mem_cons_of_mem x hy) hbs.1 hbs.2 hf⟩)
        ⟨hinv₁, hdone₁⟩ hrest
      obtain ⟨hinv', hall⟩ := ih (fun b y s b' s' hy => hstep b y s b' s' (List.mem_cons_of_mem x hy))
        (fun b y z s b' s' hy => hkeep b y z s b' s' (List.mem_cons_of_mem x hy)) hinv₁ hrest
      refine ⟨hinv', fun y hy => ?_⟩
      rcases List.mem_cons.mp hy with rfl | hy
      · exact hrest'.2
      · exact hall y hy

theorem forM_invariant (f : α → StateT σ Option PUnit) (inv : σ → Prop) {xs : List α}
    (hstep : ∀ x s s', x ∈ xs → inv s → f x s = some (⟨⟩, s') → inv s') :
    ∀ {s s'}, inv s → xs.forM f s = some (⟨⟩, s') → inv s' := by
  induction xs with
  | nil =>
      intro s s' hinv hrun
      obtain ⟨-, rfl⟩ := pure_eq_some.mp hrun
      exact hinv
  | cons x xs ih =>
      intro s s' hinv hrun
      obtain ⟨⟨⟩, s₁, hx, hrest⟩ := bind_eq_some.mp hrun
      have hinv₁ := hstep x s s₁ List.mem_cons_self hinv hx
      exact ih (fun y s s' hy => hstep y s s' (List.mem_cons_of_mem x hy)) hinv₁ hrest

theorem forM_forall_mem (f : α → StateT σ Option PUnit) (inv : σ → Prop) (done : α → σ → Prop)
    {xs : List α}
    (hstep : ∀ x s s', x ∈ xs → inv s → f x s = some (⟨⟩, s') → inv s' ∧ done x s')
    (hkeep : ∀ x y s s', x ∈ xs → inv s → done y s → f x s = some (⟨⟩, s') → done y s') :
    ∀ {s s'}, inv s → xs.forM f s = some (⟨⟩, s') → inv s' ∧ ∀ x ∈ xs, done x s' := by
  induction xs with
  | nil =>
      intro s s' hinv hrun
      obtain ⟨-, rfl⟩ := pure_eq_some.mp hrun
      exact ⟨hinv, fun x hx => absurd hx List.not_mem_nil⟩
  | cons x xs ih =>
      intro s s' hinv hrun
      obtain ⟨⟨⟩, s₁, hx, hrest⟩ := bind_eq_some.mp hrun
      obtain ⟨hinv₁, hdone₁⟩ := hstep x s s₁ List.mem_cons_self hinv hx
      have hrest' := forM_invariant f (fun s => inv s ∧ done x s)
        (fun y s s' hy hs hf =>
          ⟨(hstep y s s' (List.mem_cons_of_mem x hy) hs.1 hf).1,
            hkeep y x s s' (List.mem_cons_of_mem x hy) hs.1 hs.2 hf⟩)
        ⟨hinv₁, hdone₁⟩ hrest
      obtain ⟨hinv', hall⟩ := ih (fun y s s' hy => hstep y s s' (List.mem_cons_of_mem x hy))
        (fun y z s s' hy => hkeep y z s s' (List.mem_cons_of_mem x hy)) hinv₁ hrest
      refine ⟨hinv', fun y hy => ?_⟩
      rcases List.mem_cons.mp hy with rfl | hy
      · exact hrest'.2
      · exact hall y hy

theorem mapM_eq_none_of_mem {f : α → Option β} {l : List α} {a : α} (hmem : a ∈ l)
    (ha : f a = none) : l.mapM f = none := by
  induction l with
  | nil => cases hmem
  | cons x xs ih =>
      rw [List.mapM_cons]
      rcases List.mem_cons.mp hmem with rfl | hxs
      · simp [ha]
      · simp [ih hxs]

theorem mapM_eq_none_iff {f : α → Option β} {l : List α} :
    l.mapM f = none ↔ ∃ a ∈ l, f a = none := by
  induction l with
  | nil => simp
  | cons x xs ih =>
      rw [List.mapM_cons]
      cases hx : f x with
      | none => simp [hx]
      | some b =>
          have hrest : (∃ a ∈ x :: xs, f a = none) ↔ ∃ a ∈ xs, f a = none := by simp [hx]
          rw [hrest, ← ih]
          cases xs.mapM f <;> simp

theorem foldlM_range_succ (f : β → Nat → Option β) (n : Nat) (b : β) :
    (List.range (n + 1)).foldlM f b = (List.range n).foldlM f b >>= fun b => f b n := by
  rw [List.range_succ, List.foldlM_append]
  simp

theorem option_foldlM_eq_none_of_mem {f : β → α → Option β} {xs : List α} {x : α}
    (hmem : x ∈ xs) (hx : ∀ b, f b x = none) : ∀ b, xs.foldlM f b = none := by
  induction xs with
  | nil => cases hmem
  | cons y ys ih =>
      intro b
      rw [List.foldlM_cons]
      rcases List.mem_cons.mp hmem with rfl | hys
      · rw [hx b]
        rfl
      · cases f b y with
        | none => rfl
        | some b' => exact ih hys b'

theorem foldlM_eq_none_of_mem {f : β → α → StateT σ Option β} {xs : List α} {x : α}
    (hmem : x ∈ xs) (hx : ∀ b s, f b x s = none) : ∀ b s, xs.foldlM f b s = none := by
  induction xs with
  | nil => cases hmem
  | cons y ys ih =>
      intro b s
      rw [Option.eq_none_iff_forall_ne_some]
      rintro ⟨r, s'⟩ hrun
      obtain ⟨b₁, s₁, hy, hrest⟩ := foldlM_cons_eq_some.mp hrun
      rcases List.mem_cons.mp hmem with rfl | hys
      · rw [hx b s] at hy
        cases hy
      · rw [ih hys b₁ s₁] at hrest
        cases hrest

theorem forall₂_of_mapM_eq_some {f : α → Option β} :
    ∀ {l : List α} {l' : List β}, l.mapM f = some l' → List.Forall₂ (fun a b => f a = some b) l l'
  | [], l', h => by
      cases h
      exact .nil
  | a :: l, l', h => by
      rw [List.mapM_cons] at h
      obtain ⟨b, hb, h⟩ := Option.bind_eq_some_iff.mp h
      obtain ⟨bs, hbs, h⟩ := Option.bind_eq_some_iff.mp h
      cases h
      exact .cons hb (forall₂_of_mapM_eq_some hbs)

theorem mapM_eq_some_map {f : α → Option β} {g : α → β} :
    ∀ {l : List α}, (∀ a ∈ l, f a = some (g a)) → l.mapM f = some (l.map g)
  | [], _ => rfl
  | a :: l, h => by
      rw [List.mapM_cons, h a List.mem_cons_self, Option.bind_eq_bind, Option.bind_some,
        mapM_eq_some_map fun x hx => h x (List.mem_cons_of_mem a hx)]
      rfl

theorem mapM_flatMap_of_forall₂ {δ : Type _} {f : α → List β} {g : β → Option γ} {h : δ → List γ} :
    ∀ {l : List α} {l' : List δ}, List.Forall₂ (fun a d => (f a).mapM g = some (h d)) l l' →
      (l.flatMap f).mapM g = some (l'.flatMap h)
  | [], [], .nil => rfl
  | _ :: _, _ :: _, .cons had hrest => by
      rw [List.flatMap_cons, List.mapM_append, had, Option.bind_eq_bind, Option.bind_some,
        mapM_flatMap_of_forall₂ hrest]
      rfl

theorem foldlM_map_of_forall₂ {δ : Type _} {f : β → α → StateT σ Option β}
    {g : γ → δ → StateT σ Option γ} (π : β → γ) {xs : List α} {ys : List δ}
    (hrel : List.Forall₂ (fun x y => ∀ b s, (f b x s).map (fun r => (π r.1, r.2)) = g (π b) y s)
      xs ys) :
    ∀ b s, (xs.foldlM f b s).map (fun r => (π r.1, r.2)) = ys.foldlM g (π b) s := by
  induction hrel with
  | nil =>
      intro b s
      rfl
  | @cons x y xs ys hxy _ ih =>
      intro b s
      rw [List.foldlM_cons, List.foldlM_cons]
      exact map_bind_of_map π _ (hxy b s) ih

end StateLoop
