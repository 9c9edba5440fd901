import Mathlib.Data.List.Basic
import Mathlib.Tactic.Ring

/-!
# Merkle trees that grow to the right

The root of a list of leaves at a depth, the places that no leaf has reached filled with the roots
of empty subtrees. While leaves are added on the right, only the complete subtrees to the left of
the last leaf are needed, at most one of each level: `Covers` says that a list of such nodes stands
for a list of leaves, and `carry` adds a complete subtree to it.

The path of the last leaf leaves a gap in every level without such a node. Later leaves fill the
gaps one after the other. `climb` goes up the path and takes what fills the gaps from a list.
-/

/-- The hashes of a tree: of two neighbours in a level, and the root of an empty subtree. -/
structure NodeHash (H : Type*) where
  combine : H → H → ℕ → H
  empty : ℕ → H

namespace NodeHash

open List

variable {H : Type*} (N : NodeHash H)

/-- **The root of a list of leaves** at a depth. -/
def merkle : ℕ → List H → H
  | d, [] => N.empty d
  | 0, a :: _ => a
  | d + 1, a :: l =>
    N.combine (merkle d ((a :: l).take (2 ^ d))) (merkle d ((a :: l).drop (2 ^ d))) d

variable {N} {C F L : List H} {d n : ℕ} {ps : List (Option H)}

theorem merkle_nil : N.merkle d [] = N.empty d := by
  cases d <;> rfl

/-- A complete left half, and any right half. -/
theorem merkle_append (hC : C.length = 2 ^ d) :
    N.merkle (d + 1) (C ++ F) = N.combine (N.merkle d C) (N.merkle d F) d := by
  have htake : (C ++ F).take (2 ^ d) = C := by rw [← hC, take_left]
  have hdrop : (C ++ F).drop (2 ^ d) = F := by rw [← hC, drop_left]
  cases hl : C ++ F with
  | nil =>
    have hpos : 0 < C.length := by rw [hC]; exact Nat.two_pow_pos d
    simp [(append_eq_nil_iff.mp hl).1] at hpos
  | cons a l => rw [merkle, ← hl, htake, hdrop]

/-- An empty right half. -/
theorem merkle_succ (hne : C ≠ []) (hC : C.length ≤ 2 ^ d) :
    N.merkle (d + 1) C = N.combine (N.merkle d C) (N.empty d) d := by
  cases C with
  | nil => exact absurd rfl hne
  | cons a l => rw [merkle, take_of_length_le hC, drop_eq_nil_of_le hC, merkle_nil]

/-! ## Complete subtrees -/

variable (N) in
/-- **The nodes from level `d` on stand for the leaves**, the highest of them for the first
ones. The last node of the list is there. -/
inductive Covers : ℕ → List (Option H) → List H → Prop
  | nil (d : ℕ) : Covers d [] []
  | gap {d : ℕ} {ps : List (Option H)} {L : List H} (hps : ps ≠ []) (h : Covers (d + 1) ps L) :
    Covers d (none :: ps) L
  | node {d : ℕ} {p : H} {ps : List (Option H)} {L C : List H} (h : Covers (d + 1) ps L)
    (hC : C.length = 2 ^ d) (hp : p = N.merkle d C) : Covers d (some p :: ps) (L ++ C)

variable (N) in
/-- A complete subtree of level `d` joins the nodes. -/
def carry : H → ℕ → List (Option H) → List (Option H)
  | c, _, [] => [some c]
  | c, _, none :: ps => some c :: ps
  | c, d, some p :: ps => none :: carry (N.combine p c d) (d + 1) ps

theorem add_length_cons {p : Option H} : d + (p :: ps).length = d + 1 + ps.length := by
  rw [length_cons, Nat.add_right_comm, Nat.add_assoc]

theorem carry_ne_nil {c : H} : N.carry c d ps ≠ [] := by
  cases ps with
  | nil => simp [carry]
  | cons p ps => cases p <;> simp [carry]

section

variable (h : N.Covers d ps L)

include h

theorem Covers.carry (hC : C.length = 2 ^ d) :
    N.Covers d (N.carry (N.merkle d C) d ps) (L ++ C) := by
  induction h generalizing C with
  | nil d => exact .node (.nil _) hC rfl
  | gap hps h _ => exact .node h hC rfl
  | @node d p ps L C' h hC' hp ih =>
    have hlen : (C' ++ C).length = 2 ^ (d + 1) := by
      rw [length_append, hC', hC]
      ring
    rw [carry, hp, ← merkle_append hC', append_assoc]
    exact .gap carry_ne_nil (ih hlen)

/-- The leaves of nodes from level `d` on, with one more subtree of level `d`, fill a subtree
at most, and they fill it exactly if no node is missing. -/
theorem Covers.length_add :
    L.length + 2 ^ d ≤ 2 ^ (d + ps.length) ∧
      (L.length + 2 ^ d = 2 ^ (d + ps.length) ↔ ps.all Option.isSome = true) := by
  induction h with
  | nil d => simp
  | @gap d ps L hps h ih =>
    have hlt : 2 ^ d < 2 ^ (d + 1) := Nat.pow_lt_pow_right (by omega) (by omega)
    rw [add_length_cons]
    refine ⟨by omega, ⟨fun heq => by omega, fun hall => by simp at hall⟩⟩
  | @node d p ps L C h hC hp ih =>
    have hlen : (L ++ C).length + 2 ^ d = L.length + 2 ^ (d + 1) := by
      rw [length_append, hC]
      ring
    rw [add_length_cons, hlen]
    simpa using ih

/-- The last node stands for leaves. -/
theorem Covers.le_length (hps : ps ≠ []) : 2 ^ (d + ps.length) ≤ 2 * L.length := by
  induction h with
  | nil d => exact absurd rfl hps
  | @gap d ps L hne h ih =>
    rw [add_length_cons]
    exact ih hne
  | @node d p ps L C h hC hp ih =>
    rw [add_length_cons, length_append]
    by_cases hne : ps = []
    · subst hne
      have hpow : 2 ^ (d + 1 + ([] : List (Option H)).length) = 2 * 2 ^ d := by
        simp only [length_nil]
        ring
      omega
    · have := ih hne
      omega

theorem Covers.two_pow_dvd : 2 ^ d ∣ L.length := by
  induction h with
  | nil d => simp
  | @gap d ps L hps h ih => exact (Nat.pow_dvd_pow 2 (Nat.le_succ d)).trans ih
  | @node d p ps L C h hC hp ih =>
    rw [length_append, hC]
    exact Nat.dvd_add ((Nat.pow_dvd_pow 2 (Nat.le_succ d)).trans ih) (Nat.dvd_refl _)

/-- Nodes from level `d` on without a gap are told from the number of leaves. -/
theorem Covers.complete_iff {k : ℕ} :
    (ps.length = k ∧ ps.all Option.isSome = true) ↔ L.length + 2 ^ d = 2 ^ (d + k) := by
  obtain ⟨hle, hiff⟩ := h.length_add
  constructor
  · rintro ⟨rfl, hall⟩
    exact hiff.mpr hall
  · intro heq
    have hk : d + k ≤ d + ps.length :=
      (Nat.pow_le_pow_iff_right (by omega)).mp (heq ▸ hle)
    have hps : d + ps.length ≤ d + k := by
      by_cases hne : ps = []
      · simp [hne]
      · have hlow := h.le_length hne
        have hpos : 0 < 2 ^ d := Nat.two_pow_pos d
        have hlt : 2 ^ (d + ps.length) < 2 ^ (d + k + 1) := by
          omega
        have := (Nat.pow_lt_pow_iff_right (by omega)).mp hlt
        omega
    have hlen : ps.length = k := by omega
    subst hlen
    exact ⟨rfl, hiff.mp heq⟩

end

/-! ## Filling the gaps -/

/-- The levels without a node, among the `n` levels from `d` on. -/
def gaps : ℕ → ℕ → List (Option H) → List ℕ
  | _, 0, _ => []
  | d, n + 1, some _ :: ps => gaps (d + 1) n ps
  | d, n + 1, none :: ps => d :: gaps (d + 1) n ps
  | d, n + 1, [] => d :: gaps (d + 1) n ([] : List (Option H))

theorem lt_of_mem_gaps {g : ℕ} (h : g ∈ gaps d n ps) : g < d + n := by
  induction n generalizing d ps with
  | zero => simp [gaps] at h
  | succ n ih =>
    have hexp : d + (n + 1) = d + 1 + n := by omega
    rw [hexp]
    match ps, h with
    | some _ :: ps, h => exact ih h
    | none :: ps, h =>
      rcases mem_cons.mp h with rfl | h
      · omega
      · exact ih h
    | [], h =>
      rcases mem_cons.mp h with rfl | h
      · omega
      · exact ih h

variable (N) in
/-- **Goes up `n` levels** from a node of level `d`, with the nodes of the list on the left, and
in the gaps with what fills them on the right. -/
def climb : H → ℕ → ℕ → List (Option H) → List H → H
  | root, _, 0, _, _ => root
  | root, d, n + 1, some p :: ps, hs => climb (N.combine p root d) (d + 1) n ps hs
  | root, d, n + 1, none :: ps, hs =>
    climb (N.combine root (hs.headD (N.empty d)) d) (d + 1) n ps hs.tail
  | root, d, n + 1, [], hs =>
    climb (N.combine root (hs.headD (N.empty d)) d) (d + 1) n [] hs.tail

variable (N) in
/-- **The leaves fill gaps one after the other**, with their roots: the last gap that has leaves
may be filled in part. -/
inductive Fills : List ℕ → List (List H) → List H → Prop
  | done (gs : List ℕ) : Fills gs [] []
  | part {g : ℕ} {gs : List ℕ} {G : List H} (hne : G ≠ []) (hG : G.length ≤ 2 ^ g) :
    Fills (g :: gs) [G] [N.merkle g G]
  | full {g : ℕ} {gs : List ℕ} {G : List H} {Gs : List (List H)} {hs : List H}
    (hG : G.length = 2 ^ g) (h : Fills gs Gs hs) :
    Fills (g :: gs) (G :: Gs) (N.merkle g G :: hs)

/-- One level up through a gap: a longer list of leaves, and the gaps above. -/
theorem Fills.up {gs : List ℕ} {Gs : List (List H)} {hs : List H} (h : N.Fills (d :: gs) Gs hs)
    (hne : C ≠ []) (hC : C.length ≤ 2 ^ d) (hfull : Gs ≠ [] → C.length = 2 ^ d) :
    ∃ G Gs', C ++ Gs.flatten = C ++ G ++ Gs'.flatten ∧ (C ++ G).length ≤ 2 ^ (d + 1) ∧
      (Gs' ≠ [] → (C ++ G).length = 2 ^ (d + 1)) ∧ N.Fills gs Gs' hs.tail ∧
      N.combine (N.merkle d C) (hs.headD (N.empty d)) d = N.merkle (d + 1) (C ++ G) := by
  cases h with
  | done =>
    refine ⟨[], [], by simp, by simp; omega, by simp, .done _, ?_⟩
    simp [merkle_succ hne hC]
  | @part _ _ G hne' hG =>
    have hlen := hfull (by simp)
    exact ⟨G, [], by simp, by simp; omega, by simp, .done _, by simp [merkle_append hlen]⟩
  | @full _ _ G Gs' _ hG h =>
    have hlen := hfull (by simp)
    exact ⟨G, Gs', by simp, by simp; omega, fun _ => by simp; omega, h,
      by simp [merkle_append hlen]⟩

/-- **Going up finds the root of all the leaves.** -/
theorem climb_eq {Gs : List (List H)} {hs : List H} (hL : N.Covers d ps L) (hps : ps.length ≤ n)
    (hne : C ≠ []) (hC : C.length ≤ 2 ^ d) (hfull : Gs ≠ [] → C.length = 2 ^ d)
    (hfill : N.Fills (gaps d n ps) Gs hs) :
    N.climb (N.merkle d C) d n ps hs = N.merkle (d + n) (L ++ (C ++ Gs.flatten)) := by
  induction n generalizing d ps L C Gs hs with
  | zero =>
    obtain rfl := length_eq_zero_iff.mp (Nat.le_zero.mp hps)
    cases hL
    cases hfill
    simp [climb]
  | succ n ih =>
    have hexp : d + (n + 1) = d + 1 + n := by omega
    rw [hexp]
    cases hL with
    | nil =>
      obtain ⟨G, Gs', hGs, hlen, hfull', hfill', hroot⟩ := Fills.up hfill hne hC hfull
      rw [climb, hroot, hGs]
      exact ih (.nil _) (by simp) (by simp [hne]) hlen hfull' hfill'
    | gap hps' hL' =>
      obtain ⟨G, Gs', hGs, hlen, hfull', hfill', hroot⟩ := Fills.up hfill hne hC hfull
      rw [climb, hroot, hGs]
      exact ih hL' (by simpa using hps) (by simp [hne]) hlen hfull' hfill'
    | @node _ p ps L C' hL' hC' hp =>
      have hup := ih (C := C' ++ C) hL' (by simpa using hps) (by simp [hne]) (by simp; omega)
        (fun h => by have := hfull h; simp; omega) hfill
      rw [climb, hp, ← merkle_append hC', hup]
      simp

variable (N) in
/-- **The first gaps are filled**, and the others are left. -/
inductive Filled : List ℕ → List (List H) → List H → List ℕ → Prop
  | nil (gs : List ℕ) : Filled gs [] [] gs
  | cons {g : ℕ} {gs rest : List ℕ} {F : List H} {Fs : List (List H)} {hs : List H}
    (hF : F.length = 2 ^ g) (h : Filled gs Fs hs rest) :
    Filled (g :: gs) (F :: Fs) (N.merkle g F :: hs) rest

namespace Filled

variable {gs rest : List ℕ} {Fs : List (List H)} {hs : List H} {g : ℕ} {G : List H}

theorem fills (h : N.Filled gs Fs hs rest) : N.Fills gs Fs hs := by
  induction h with
  | nil gs => exact .done gs
  | cons hF h ih => exact .full hF ih

/-- The next gap is filled. -/
theorem concat (h : N.Filled gs Fs hs (g :: rest)) (hG : G.length = 2 ^ g) :
    N.Filled gs (Fs ++ [G]) (hs ++ [N.merkle g G]) rest := by
  generalize hr : g :: rest = left at h
  induction h with
  | nil gs =>
    subst hr
    exact .cons hG (.nil rest)
  | cons hF h ih => exact .cons hF (ih hr)

/-- The next gap is filled in part. -/
theorem fills_concat (h : N.Filled gs Fs hs (g :: rest)) (hne : G ≠ []) (hG : G.length ≤ 2 ^ g) :
    N.Fills gs (Fs ++ [G]) (hs ++ [N.merkle g G]) := by
  generalize hr : g :: rest = left at h
  induction h with
  | nil gs =>
    subst hr
    exact .part hne hG
  | cons hF h ih => exact .full hF (ih hr)

/-- The gaps that are left. -/
theorem rest_eq (h : N.Filled gs Fs hs rest) : rest = gs.drop hs.length := by
  induction h with
  | nil gs => rfl
  | cons hF h ih => exact ih

end Filled

end NodeHash
