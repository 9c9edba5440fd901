import Passion.Chain.Consistency
import Passion.Consensus.Retarget

/-!
# Finding the way in the block tree

`GetAncestor`, which jumps along the skip pointers, and `LastCommonAncestor` of `chain.cpp`.
-/

namespace Passion

open List CBlockIndex

namespace CBlockIndex

/-- The loop of `GetAncestor`. -/
def skipWalk (m : BlockMap) (height heightWalk : ℕ) (pindexWalk : CBlockIndex) :
    Option CBlockIndex :=
  if height < heightWalk then
    let heightSkip := getSkipHeight heightWalk
    let heightSkipPrev := getSkipHeight (heightWalk - 1)
    if heightSkip = height ∨ height < heightSkip ∧
        ¬ ((heightSkipPrev : ℤ) < heightSkip - 2 ∧ height ≤ heightSkipPrev) then
      (pindexWalk.pskip m).bind (skipWalk m height heightSkip)
    else (pindexWalk.prev m).bind (skipWalk m height (heightWalk - 1))
  else some pindexWalk
termination_by heightWalk
decreasing_by
  · exact getSkipHeight_lt (by omega)
  · omega

/-- `GetAncestor`, as the source computes it. -/
def getAncestorBySkips (m : BlockMap) (p : CBlockIndex) (height : ℤ) : Option CBlockIndex :=
  if p.nHeight < height ∨ height < 0 then none
  else skipWalk m height.toNat p.nHeight.toNat p

/-- The pointer that `BuildSkip` sets. -/
def buildSkip (m : BlockMap) (p : CBlockIndex) : Option CBlockIndex :=
  (p.prev m).bind fun q => q.getAncestorBySkips m (getSkipHeight p.nHeight.toNat)

/-- The loop of `LastCommonAncestor` for at most `n` turns, with the assertion at its end. -/
def commonWalk (m : BlockMap) : ℕ → Option CBlockIndex → Option CBlockIndex →
    Result (Option CBlockIndex)
  | n + 1, some pa, some pb =>
    if pa = pb then .ok pa else commonWalk m n (pa.prev m) (pb.prev m)
  | _, pa, pb => if pa = pb then .ok pa else .error (.assertion "pa == pb")

/-- `LastCommonAncestor`. -/
def lastCommonAncestor (m : BlockMap) (pa pb : CBlockIndex) : Result (Option CBlockIndex) :=
  commonWalk m (pa.nHeight.toNat + 1)
    (if pb.nHeight < pa.nHeight then pa.getAncestor m pb.nHeight else some pa)
    (if pa.nHeight < pb.nHeight then pb.getAncestor m pa.nHeight else some pb)

/-- **Two chains part at `r`**: the ancestors of `r` are what they have in common. -/
def PartAt (m : BlockMap) (p q : CBlockIndex) (r : Option CBlockIndex) : Prop :=
  ∀ a, a ∈ p.ancestors m ∧ a ∈ q.ancestors m ↔ ∃ b ∈ r, a ∈ b.ancestors m

end CBlockIndex

namespace BlockMap.IsTree

variable {m : BlockMap} {hash hash' : Uint256} {p q a : CBlockIndex}
variable (hm : m.IsTree) (hp : m.lookup hash = some p)

include hm hp

/-- Below an ancestor the entry has the ancestors of that ancestor. -/
theorem getAncestor_of_mem {k : ℤ} : a ∈ p.ancestors m → k ≤ a.nHeight →
    p.getAncestor m k = a.getAncestor m k := by
  refine hm.induction ?_ ?_ hp
  · intro hash p hp hroot ha _
    rw [hm.ancestors_root hp hroot, mem_singleton] at ha
    rw [ha]
  · intro hash p g q hp hprev hq ih ha hk
    rw [hm.ancestors_child hp hprev hq, mem_cons] at ha
    rcases ha with rfl | ha
    · rfl
    · have hheight := hm.nHeight_child hp hprev hq
      have hle := hm.nHeight_le_of_mem_ancestors hq ha
      have hne : p.nHeight ≠ k := by omega
      rw [← ih ha hk, getAncestor, hm.ancestors_child hp hprev hq, find?_cons_of_neg (by simpa)]
      rfl

theorem getAncestor_self : p.getAncestor m p.nHeight = some p := by
  rw [getAncestor, ← cons_head?_tail (hm.head?_ancestors hp), find?_cons_of_pos (by simp)]

/-- An entry above the root has a parent. -/
theorem exists_prev (hpos : 0 < p.nHeight) : ∃ g q, m.lookup g = some q ∧ p.prev m = some q ∧
    p.nHeight = q.nHeight + 1 ∧ p.ancestors m = p :: q.ancestors m := by
  cases hprev : p.pprev with
  | none =>
    have := hm.root hp hprev
    omega
  | some g =>
    obtain ⟨q, hq, hheight⟩ := hm.parent hp hprev
    have hsome : p.prev m = some q := by rw [CBlockIndex.prev, hprev]; exact hq
    exact ⟨g, q, hq, hsome, hheight, hm.ancestors_child hp hprev hq⟩

theorem prev_root (hzero : p.nHeight = 0) : p.prev m = none ∧ p.ancestors m = [p] := by
  cases hprev : p.pprev with
  | none => exact ⟨by rw [CBlockIndex.prev, hprev]; rfl, hm.ancestors_root hp hprev⟩
  | some g =>
    obtain ⟨q, hq, hheight⟩ := hm.parent hp hprev
    have := hm.nonneg hq
    omega

/-- **The skip list leads to the ancestor.** -/
theorem skipWalk_eq {k n : ℕ} (hn : p.nHeight = n) (hk : k ≤ n) :
    skipWalk m k n p = p.getAncestor m k := by
  induction n using Nat.strong_induction_on generalizing hash p with
  | h n ih =>
    rw [skipWalk]
    split
    · next hlt =>
      obtain ⟨g, q, hq, hsome, hheight, hcons⟩ := hm.exists_prev hp (by omega)
      -- Both pointers lead to an ancestor that is not below the height looked for.
      have step : ∀ {a : CBlockIndex} {j : ℕ}, a ∈ q.ancestors m → a.nHeight = j → k ≤ j →
          skipWalk m k j a = p.getAncestor m k := by
        intro a j ha hj hkj
        have hle := hm.nHeight_le_of_mem_ancestors hq ha
        have hmem : a ∈ p.ancestors m := hcons ▸ mem_cons_of_mem _ ha
        rw [hm.getAncestor_of_mem hp hmem (by omega)]
        exact ih j (by omega) (hm.lookup_ancestor hp hmem) hj hkj
      simp only
      split
      · have hless := getSkipHeight_lt (n := n) (by omega)
        obtain ⟨s, hs, hsh⟩ := hm.exists_getAncestor hq (k := getSkipHeight n) (by omega)
        have hptr : p.pskip m = some s := by
          rw [pskip, hsome, hn]
          exact hs
        rw [hptr]
        exact step (mem_of_find?_eq_some hs) hsh (by omega)
      · rw [hsome]
        exact step (hm.self_mem_ancestors hq) (by omega) (by omega)
    · obtain rfl : k = n := by omega
      rw [← hn, hm.getAncestor_self hp]

theorem getAncestorBySkips_eq (height : ℤ) :
    p.getAncestorBySkips m height = p.getAncestor m height := by
  rw [getAncestorBySkips]
  split
  · next hout =>
    refine (find?_eq_none.mpr fun a ha => ?_).symm
    have hle := hm.nHeight_le_of_mem_ancestors hp ha
    have hnonneg := hm.nonneg (hm.lookup_ancestor hp ha)
    simp
    omega
  · next hin =>
    rw [hm.skipWalk_eq hp (by omega) (by omega)]
    congr 1
    omega

/-- **`GetAncestor` finds the ancestor at every height**, and nothing outside the chain; so
`BuildSkip` sets the pointer that it relies on. -/
theorem getAncestor_exact : (∀ height, p.getAncestorBySkips m height = p.getAncestor m height) ∧
    p.buildSkip m = p.pskip m := by
  refine ⟨hm.getAncestorBySkips_eq hp, ?_⟩
  rw [buildSkip, pskip]
  cases hprev : p.prev m with
  | none => rfl
  | some q =>
    obtain ⟨g, -, hq⟩ := Option.bind_eq_some_iff.mp hprev
    exact hm.getAncestorBySkips_eq hq _

/-! ## The last common ancestor -/

/-- The entry of `p` at the height of a lower one has the ancestors of `p` up to there. -/
theorem exists_lowered {k : ℤ} (hk : 0 ≤ k) : ∃ p',
    (if k < p.nHeight then p.getAncestor m k else some p) = some p' ∧ p' ∈ p.ancestors m ∧
      p'.nHeight = min k p.nHeight := by
  split
  · next hlt =>
    obtain ⟨p', hp', hheight⟩ := hm.exists_getAncestor hp (k := k.toNat) (by omega)
    rw [Int.toNat_of_nonneg hk] at hp'
    exact ⟨p', hp', mem_of_find?_eq_some hp', by omega⟩
  · exact ⟨p, rfl, hm.self_mem_ancestors hp, by omega⟩

theorem mem_ancestors_of_le (hq : q ∈ p.ancestors m) (ha : a ∈ p.ancestors m)
    (hle : a.nHeight ≤ q.nHeight) : a ∈ q.ancestors m := by
  have hsame := hm.getAncestor_of_mem hp hq hle
  rw [hm.getAncestor_of_mem hp ha le_rfl, hm.getAncestor_self (hm.lookup_ancestor hp ha)] at hsame
  exact mem_of_find?_eq_some hsame.symm

/-- **Two entries of one height** are followed to where their chains meet. -/
theorem commonWalk_spec {n : ℕ} (hq : m.lookup hash' = some q) (hheight : p.nHeight = q.nHeight)
    (hn : p.nHeight < n) : ∃ r, commonWalk m n p q = .ok r ∧ PartAt m p q r := by
  induction n generalizing hash hash' p q with
  | zero =>
    have := hm.nonneg hp
    omega
  | succ n ih =>
    rw [commonWalk]
    split
    · next heq =>
      subst heq
      exact ⟨_, rfl, by simp [PartAt]⟩
    · next hne =>
      rcases (hm.nonneg hp).eq_or_lt with hzero | hpos
      · obtain ⟨hprev, hone⟩ := hm.prev_root hp hzero.symm
        obtain ⟨hprev', hone'⟩ := hm.prev_root hq (by omega)
        refine ⟨none, by cases n <;> simp [hprev, hprev', commonWalk], fun a => ?_⟩
        rw [hone, hone', mem_singleton, mem_singleton]
        simpa using fun hap : a = p => hap ▸ hne
      · obtain ⟨g, p', hp', hprev, hless, hcons⟩ := hm.exists_prev hp hpos
        obtain ⟨g', q', hq', hprev', hless', hcons'⟩ := hm.exists_prev hq (by omega)
        obtain ⟨r, hr, hall⟩ := ih hp' hq' (by omega) (by omega)
        refine ⟨r, by rw [hprev, hprev']; exact hr, fun a => ?_⟩
        rw [← hall, hcons, hcons', mem_cons, mem_cons]
        refine ⟨?_, fun h => ⟨.inr h.1, .inr h.2⟩⟩
        rintro ⟨rfl | ha, rfl | ha'⟩
        · exact absurd rfl hne
        · have := hm.nHeight_le_of_mem_ancestors hq' ha'
          omega
        · have := hm.nHeight_le_of_mem_ancestors hp' ha
          omega
        · exact ⟨ha, ha'⟩

/-- **`LastCommonAncestor` returns where two chains part.** -/
theorem lastCommonAncestor_partAt (hq : m.lookup hash' = some q) :
    ∃ r, p.lastCommonAncestor m q = .ok r ∧ PartAt m p q r := by
  obtain ⟨p', hp', hpmem, hpheight⟩ := hm.exists_lowered hp (hm.nonneg hq)
  obtain ⟨q', hq', hqmem, hqheight⟩ := hm.exists_lowered hq (hm.nonneg hp)
  have hnonneg := hm.nonneg hp
  obtain ⟨r, hr, hall⟩ := hm.commonWalk_spec (hm.lookup_ancestor hp hpmem)
    (hm.lookup_ancestor hq hqmem) (n := p.nHeight.toNat + 1) (by omega) (by omega)
  refine ⟨r, by rw [lastCommonAncestor, hp', hq', hr], fun a => ?_⟩
  rw [← hall]
  constructor
  · rintro ⟨ha, ha'⟩
    have hle := hm.nHeight_le_of_mem_ancestors hp ha
    have hle' := hm.nHeight_le_of_mem_ancestors hq ha'
    exact ⟨hm.mem_ancestors_of_le hp hpmem ha (by omega),
      hm.mem_ancestors_of_le hq hqmem ha' (by omega)⟩
  · rintro ⟨ha, ha'⟩
    exact ⟨hm.ancestors_subset hp hpmem ha, hm.ancestors_subset hq hqmem ha'⟩

end BlockMap.IsTree

namespace ChainIndex

open BlockMap.IsTree

/-- Block 30 of a chain points to block 28. -/
theorem getAncestor_exact_mined :
    (∀ height, (minedEntry 30).getAncestorBySkips (minedChain 31) height =
        (minedEntry 30).getAncestor (minedChain 31) height) ∧
      (minedEntry 30).buildSkip (minedChain 31) = some (minedEntry 28) := by
  have htree : (minedChain 31).IsTree := by decide +kernel
  have hlast : (minedChain 31).lookup (BaseUint.ofNat 30) = some (minedEntry 30) := by
    decide +kernel
  obtain ⟨hall, hskip⟩ := getAncestor_exact htree hlast
  exact ⟨hall, hskip.trans (by decide +kernel)⟩

/-- The two branches of the sample. -/
theorem lastCommonAncestor_forkTip : ∃ q, forkIndex.Has (BaseUint.ofNat 4) q ∧
    ∃ r, forkTip.lastCommonAncestor forkIndex q = .ok r ∧ PartAt forkIndex forkTip q r :=
  have hq : forkIndex.Has (BaseUint.ofNat 4)
      (forkEntry 4 (some 3) 2 3 4 ⟨3, true, false, false, false⟩) := by decide +kernel
  ⟨_, hq, lastCommonAncestor_partAt (by decide +kernel) forkIndex_isChain.entry hq⟩

end ChainIndex

end Passion
