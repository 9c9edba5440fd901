import Mathlib.Data.List.Sigma

/-!
# Layers of a write-back cache

A layer keeps entries for some keys of a map below it. The default value of the value type says that
a key has no value. An entry holds the value of its key and two flags: *dirty*, the entry may differ
from what is below, and *fresh*, below there is no value. Reading, writing and removing through a
layer that tells the truth about the map below keep it truthful. Merging a layer into the one below
leaves what is read through both unchanged.
-/

namespace Layered

open List Function

variable {K V : Type*}

/-- What a layer holds for a key. -/
structure Entry (V : Type*) where
  val : V
  dirty : Bool
  fresh : Bool

/-- A layer: entries for some of the keys. -/
abbrev Layer (K V : Type*) := K → Option (Entry V)

/-- What is read through the layer `l` over the map `b`. -/
def view (l : Layer K V) (b : K → V) (k : K) : V :=
  match l k with
  | some e => e.val
  | none => b k

variable {l : Layer K V} {b : K → V}

theorem view_some {k : K} {e : Entry V} (h : l k = some e) : view l b k = e.val := by
  simp [view, h]

theorem view_none {k : K} (h : l k = none) : view l b k = b k := by
  simp [view, h]

variable [Inhabited V]

/-- **The flags tell the truth** about the map below. -/
structure Sound (l : Layer K V) (b : K → V) : Prop where
  fresh : ∀ k e, l k = some e → e.fresh = true → b k = default
  clean : ∀ k e, l k = some e → e.dirty = false → b k = e.val

/-- It is enough to look at one entry at a time. -/
theorem Sound.of_entry (h : ∀ k e, l k = some e →
    (e.fresh = true → b k = default) ∧ (e.dirty = false → b k = e.val)) : Sound l b :=
  ⟨fun k e he => (h k e he).1, fun k e he => (h k e he).2⟩

theorem sound_empty (b : K → V) : Sound (fun _ => none) b where
  fresh := fun _ _ h => by cases h
  clean := fun _ _ h => by cases h

/-! ## Reading, writing and removing -/

section Update

variable [DecidableEq K] {k : K}

omit [Inhabited V] in
theorem view_update_some (e : Entry V) :
    view (update l k (some e)) b = update (view l b) k e.val := by
  funext k'
  by_cases hk : k' = k
  · subst hk
    simp [view]
  · simp [view, hk]

theorem view_update_none (h : b k = default) :
    view (update l k none) b = update (view l b) k default := by
  funext k'
  by_cases hk : k' = k
  · subst hk
    simp [view, h]
  · simp [view, hk]

omit [Inhabited V] in
/-- **Forgetting** an entry that says what is below does not change what is read. -/
theorem view_forget {e : Entry V} (h : l k = some e) (hb : b k = e.val) :
    view (update l k none) b = view l b := by
  funext k'
  by_cases hk : k' = k
  · subst hk
    simp [view, h, hb]
  · simp [view, hk]

omit [Inhabited V] in
/-- **Reading** a key into the layer does not change what is read. -/
theorem view_fetch (h : l k = none) (f : Bool) :
    view (update l k (some ⟨b k, false, f⟩)) b = view l b := by
  rw [view_update_some, ← view_none (b := b) h, update_eq_self]

namespace Sound

theorem update_some (h : Sound l b) {e : Entry V} (hf : e.fresh = true → b k = default)
    (hc : e.dirty = false → b k = e.val) : Sound (update l k (some e)) b := by
  refine of_entry fun k' e' hl => ?_
  by_cases hk : k' = k
  · subst hk
    obtain rfl : e = e' := by simpa using hl
    exact ⟨hf, hc⟩
  · rw [update_of_ne hk] at hl
    exact ⟨h.fresh k' e' hl, h.clean k' e' hl⟩

theorem fetch (h : Sound l b) {f : Bool} (hf : f = true → b k = default) :
    Sound (update l k (some ⟨b k, false, f⟩)) b :=
  h.update_some hf fun _ => rfl

theorem update_none (h : Sound l b) : Sound (update l k none) b := by
  refine of_entry fun k' e' hl => ?_
  by_cases hk : k' = k
  · subst hk
    simp at hl
  · rw [update_of_ne hk] at hl
    exact ⟨h.fresh k' e' hl, h.clean k' e' hl⟩

end Sound

end Update

/-- **A value that was written through** a layer at a key is what is read there: it is the one
below where the layer has nothing to write, and the one of the entry otherwise. -/
theorem rel_view_of_written {R : V → V → Prop} (hR : ∀ v, R v v) {c : Layer K V}
    (hc : Sound c b) {k : K} {v : V}
    (hkept : (∀ e, c k = some e → e.dirty = false) → v = b k)
    (hdirty : ∀ e, c k = some e → e.dirty = true → R v e.val) : R v (view c b k) := by
  cases hck : c k with
  | none =>
    rw [view_none hck, hkept fun e he => by rw [hck] at he; cases he]
    exact hR _
  | some e =>
    rw [view_some hck]
    cases hd : e.dirty with
    | true => exact hdirty e hck hd
    | false =>
      rw [← hc.clean k e hck hd, hkept fun e' he' => by rw [hck] at he'; cases he'; exact hd]
      exact hR _

/-- **A table that the entries of a layer were written to** reads as the layer did. -/
theorem rel_view_of_elim {β : Type*} {R : V → V → Prop} (hR : ∀ v, R v v)
    {f : β → Entry V} {m : K → Option β} (hc : Sound (fun k => (m k).map f) b) {k : K}
    {v : V} (y : β → V) (hv : v = (m k).elim (b k) fun e => if !(f e).dirty then b k else y e)
    (hy : ∀ e, R (y e) (f e).val) : R v (view (fun k => (m k).map f) b k) := by
  refine rel_view_of_written hR hc (fun hclean => ?_) fun e he hdirty => ?_
  · rw [hv]
    cases he : m k with
    | none => rfl
    | some e => simp [hclean (f e) (by simp [he])]
  · obtain ⟨e, hm, rfl⟩ := Option.map_eq_some_iff.mp he
    rw [hv, hm]
    simpa [hdirty] using hy e

/-! ## Merging a layer into the one below

A merge may hand values over faithfully, or only up to a relation `R` between values. -/

variable (R : V → V → Prop)

/-- What a merge may leave below for a dirty entry `e` that meets `u`: nothing, if there is
no value and nothing further below, or an entry that takes over the value, whose flags are
no bolder than those it had or was handed. -/
inductive MergesTo (e : Entry V) : Option (Entry V) → Option (Entry V) → Prop
  | dropped (u : Option (Entry V)) (hval : e.val = default)
      (hnone : u = none → e.fresh = true) (hsome : ∀ u', u = some u' → u'.fresh = true) :
      MergesTo e u none
  | created (d : Entry V) (hval : R d.val e.val) (hdirty : d.dirty = true)
      (hfresh : d.fresh = true → e.fresh = true) : MergesTo e none (some d)
  | changed (u d : Entry V) (hval : R d.val e.val) (hfresh : d.fresh = true → u.fresh = true)
      (hclean : d.dirty = false → d = u) : MergesTo e (some u) (some d)

/-- The layer `p'` is `p` with the dirty entries of `c` merged in. -/
structure Merged (c p p' : Layer K V) : Prop where
  kept : ∀ k, (∀ e, c k = some e → e.dirty = false) → p' k = p k
  dirty : ∀ k e, c k = some e → e.dirty = true → MergesTo R e (p k) (p' k)

namespace Merged

variable {R} {c p p' : Layer K V}

/-- **A merge does not change what is read**, up to the relation it hands values over by. -/
theorem view_rel (h : Merged R c p p') (hR : ∀ v, R v v) (hc : Sound c (view p b))
    (hp : Sound p b) (k : K) : R (view p' b k) (view c (view p b) k) := by
  refine rel_view_of_written hR hc (fun hclean => ?_) fun e hck hd => ?_
  · simp [view, h.kept k hclean]
  · have hm := h.dirty k e hck hd
    generalize hpk : p k = u, hpk' : p' k = u' at hm
    cases hm with
    | dropped _ hval hnone hsome =>
      rw [view_none hpk', hval]
      have hb : b k = default := by
        cases u with
        | none => rw [← view_none (b := b) hpk]; exact hc.fresh k e hck (hnone rfl)
        | some u => exact hp.fresh k u hpk (hsome u rfl)
      rw [hb]
      exact hR default
    | created d hval => rw [view_some hpk']; exact hval
    | changed u d hval => rw [view_some hpk']; exact hval

/-- **A faithful merge does not change what is read.** -/
theorem view_eq (h : Merged Eq c p p') (hc : Sound c (view p b)) (hp : Sound p b) :
    view p' b = view c (view p b) :=
  funext fun k => h.view_rel (fun _ => rfl) hc hp k

/-- **A merge keeps the lower layer sound.** -/
theorem sound (h : Merged R c p p') (hc : Sound c (view p b)) (hp : Sound p b) : Sound p' b := by
  refine Sound.of_entry fun k d hd => ?_
  by_cases hkept : ∀ e, c k = some e → e.dirty = false
  · rw [h.kept k hkept] at hd
    exact ⟨hp.fresh k d hd, hp.clean k d hd⟩
  · push Not at hkept
    obtain ⟨e, hck, hdirty⟩ := hkept
    have hm := h.dirty k e hck (by simpa using hdirty)
    rw [hd] at hm
    generalize hpk : p k = u at hm
    cases hm with
    | created _ hval hdd hfresh =>
      refine ⟨fun hf => ?_, fun hcl => by rw [hdd] at hcl; cases hcl⟩
      rw [← view_none (b := b) hpk]
      exact hc.fresh k e hck (hfresh hf)
    | changed u _ hval hfresh hclean =>
      refine ⟨fun hf => hp.fresh k u hpk (hfresh hf), fun hcl => ?_⟩
      obtain rfl := hclean hcl
      exact hp.clean k _ hpk hcl

/-- **A merge entry by entry**: where the entries of a layer are stored in another form, it is
enough to look at what the merge makes of one stored entry. -/
theorem of_lookup {β : Type*} {f : β → Entry V} {mc m m' : K → Option β}
    (merge : β → Option β → Option β) (hlook : ∀ k, m' k = (mc k).elim (m k) fun e =>
      if !(f e).dirty then m k else merge e (m k))
    (hmerge : ∀ e us, MergesTo R (f e) (us.map f) ((merge e us).map f)) :
    Merged R (fun k => (mc k).map f) (fun k => (m k).map f) (fun k => (m' k).map f) where
  kept := by
    intro k hclean
    cases he : mc k with
    | none => simp [hlook, he]
    | some e =>
      have hd : (f e).dirty = false := hclean _ (by simp [he])
      simp [hlook, he, hd]
  dirty := by
    intro k d hd hdirty
    obtain ⟨e, he, rfl⟩ := Option.map_eq_some_iff.mp hd
    simpa [hlook, he, hdirty] using hmerge e (m k)

end Merged

/-! ## Writing entries one by one -/

omit [Inhabited V] in
/-- **A loop that writes one key at a time**: what is read at a key afterwards depends only on
what was there and on the entry of the key. -/
theorem look_foldl {M W : Type*} [DecidableEq K] (look : M → K → W) {step : M → K → V → M}
    {g : K → V → W → W} (hstep : ∀ m k v k', look (step m k v) k' =
      if k' = k then g k v (look m k) else look m k')
    {es : List (Σ _ : K, V)} (hnd : es.NodupKeys) (m : M) (k : K) :
    look (es.foldl (fun m e => step m e.1 e.2) m) k =
      (es.dlookup k).elim (look m k) fun v => g k v (look m k) := by
  induction es generalizing m with
  | nil => rfl
  | cons e es ih =>
    obtain ⟨k₀, v⟩ := e
    obtain ⟨hnot, hrest⟩ := nodupKeys_cons.mp hnd
    rw [foldl_cons, ih hrest, hstep]
    by_cases hk : k = k₀
    · subst hk
      rw [if_pos rfl, dlookup_cons_eq, dlookup_eq_none.mpr hnot]
      rfl
    · rw [if_neg hk, dlookup_cons_ne _ _ hk]

section Loop

variable {ε M W : Type*} [DecidableEq K] (look : M → K → W) {step : M → K → V → Except ε M}
  {F : K → V → W → Prop} {g : K → V → W → W} {es : List (Σ _ : K, V)}

omit [Inhabited V]

/-- The same for a loop whose steps may stop: it does not where every entry fits what it
meets. -/
theorem look_foldlM (hstep : ∀ m k v, F k v (look m k) → ∃ m', step m k v = .ok m' ∧
      ∀ k', look m' k' = if k' = k then g k v (look m k) else look m k')
    (hnd : es.NodupKeys) (m : M) (h : ∀ k v, es.dlookup k = some v → F k v (look m k)) :
    ∃ m', es.foldlM (fun m e => step m e.1 e.2) m = .ok m' ∧
      ∀ k, look m' k = (es.dlookup k).elim (look m k) fun v => g k v (look m k) := by
  induction es generalizing m with
  | nil => exact ⟨m, rfl, fun k => rfl⟩
  | cons e es ih =>
    obtain ⟨k₀, v₀⟩ := e
    obtain ⟨hnot, hrest⟩ := nodupKeys_cons.mp hnd
    obtain ⟨m₁, hok, hlook⟩ := hstep m k₀ v₀ (h k₀ v₀ (dlookup_cons_eq ..))
    have hne : ∀ k v, es.dlookup k = some v → k ≠ k₀ := by
      rintro k v hv rfl
      rw [dlookup_eq_none.mpr hnot] at hv
      cases hv
    obtain ⟨m', hloop, hlook'⟩ := ih hrest m₁ fun k v hv => by
      rw [hlook, if_neg (hne k v hv)]
      exact h k v (by rw [dlookup_cons_ne _ _ (hne k v hv), hv])
    refine ⟨m', ?_, fun k => ?_⟩
    · rw [foldlM_cons, hok]
      exact hloop
    · rw [hlook', hlook]
      by_cases hk : k = k₀
      · subst hk
        rw [if_pos rfl, dlookup_cons_eq, dlookup_eq_none.mpr hnot]
        rfl
      · rw [if_neg hk, dlookup_cons_ne _ _ hk]

/-- It stops where an entry does not fit, if such a step stops. -/
theorem fits_of_foldlM (hstep : ∀ m k v m', step m k v = .ok m' → F k v (look m k) ∧
      ∀ k', k' ≠ k → look m' k' = look m k')
    (hnd : es.NodupKeys) {m m' : M} (hok : es.foldlM (fun m e => step m e.1 e.2) m = .ok m') {k : K}
    {v : V} (hk : es.dlookup k = some v) : F k v (look m k) := by
  induction es generalizing m with
  | nil => cases hk
  | cons e es ih =>
    obtain ⟨k₀, v₀⟩ := e
    obtain ⟨hnot, hrest⟩ := nodupKeys_cons.mp hnd
    rw [foldlM_cons] at hok
    cases hs : step m k₀ v₀ with
    | error e => rw [hs] at hok; cases hok
    | ok m₁ =>
      rw [hs] at hok
      obtain ⟨hfits, hother⟩ := hstep m k₀ v₀ m₁ hs
      by_cases hkk : k = k₀
      · subst hkk
        rw [dlookup_cons_eq] at hk
        cases hk
        exact hfits
      · rw [dlookup_cons_ne _ _ hkk] at hk
        rw [← hother k hkk]
        exact ih hrest hok hk

end Loop

end Layered
