/-
NovarisOS.Fat32.Space — `ensure_chain` takes all the clusters it was asked
for or none.

`Grown` of `ChainTheorems` already says what the FAT and the clusters are
afterwards. What it does not say is what nobody can tell apart: a rollback
may leave another end mark in the last entry of the old chain than it found
there. The cluster list of every chain (`Chain`), the free clusters and
their count are the same.

* `ensure_chain_all_or_nothing`
-/
import NovarisOS.Fat32.FileTheorems

namespace NovarisOS.Fat32

variable {v : Vol} {fs fs' : Fs} {f f' : Nat → Nat} {d d' : Nat → Mem} {c x : Nat}
  {l new : List Nat}

theorem Links.follow_eq {s : Option Nat} (h : Links (follow f) s l) (h' : Links (follow f') s l) :
    ∀ x ∈ l, follow f' x = follow f x := by
  induction l generalizing s with
  | nil => simp
  | cons y r ih =>
    have hhead : follow f' y = follow f y := by
      have h₁ : Links (follow f) (follow f y) r := h.2
      have h₂ : Links (follow f') (follow f' y) r := h'.2
      cases r with
      | nil => exact (show follow f' y = none from h₂).trans (show follow f y = none from h₁).symm
      | cons z r => rw [h₁.1, h₂.1]
    intro x hx
    rcases List.mem_cons.mp hx with rfl | hx
    · exact hhead
    · refine ih h.2 ?_ x hx
      rw [← hhead]
      exact h'.2

theorem Grown.follow_eq (h : Grown v f f' d d' l [] c) (hl : Chain v f c l) (x : Nat) :
    follow f' x = follow f x := by
  by_cases hx : x ∈ l
  · exact Links.follow_eq hl.links (by simpa using h.chain.links) x hx
  · rw [NovarisOS.Fat32.follow_eq, NovarisOS.Fat32.follow_eq, h.outside x hx (by simp)]

theorem Chain.of_follow (h : Chain v f c l) (hfollow : ∀ x, follow f' x = follow f x)
    (hfree : ∀ x, f' x = 0 ↔ f x = 0) : Chain v f' c l :=
  ⟨h.links.congr fun x _ => hfollow x, h.head, h.has, fun x hx h0 => h.used x hx ((hfree x).mp h0)⟩

/-- With every request served: `ensure_chain` returns 0 and the chain has the
clusters asked for, the old ones first and every other one zeroed, or it
returns `ENOSPC` and every chain, every free cluster and the count of them
are what they were. -/
theorem ensure_chain_all_or_nothing (g : v.Geometry) (hok : fs.Ok v) (node : Node)
    (hl : Chain v (fs.fat v) node.fsCluster l) (need : Nat) :
    match ensureChain v node need fs with
    | (.ok _, node', fs') =>
        ∃ new, Chain v (fs'.fat v) node'.fsCluster (l ++ new) ∧ need ≤ (l ++ new).length ∧
          ∀ x ∈ new, ∀ i, i < v.clusterBytes → fs'.data v x i = 0
    | (.error e, node', fs') =>
        e = ENOSPC ∧ node'.fsCluster = node.fsCluster ∧
        (∀ c l, Chain v (fs'.fat v) c l ↔ Chain v (fs.fat v) c l) ∧
        (∀ x, fs'.fat v x = 0 ↔ fs.fat v x = 0) ∧
        (Counted v fs (fs.fat v) → fs'.freeCount = fs.freeCount) := by
  obtain ⟨res, node', fs', f', d', new, heq, h', hg, -, hres, hcounted⟩ :=
    ensureChain_spec g hok.reads hl need
  rw [heq]
  obtain rfl := h'.fat
  obtain rfl := h'.data
  rcases hres with ⟨rfl, hlen⟩ | ⟨rfl, rfl, hhead⟩
  · exact ⟨new, hg.chain, by omega, fun x hx i _ => by rw [hg.zeroed x hx]⟩
  · rw [hhead] at hg
    have hfollow := hg.follow_eq hl
    have hfree : ∀ x, fs'.fat v x = 0 ↔ fs.fat v x = 0 := fun x => by
      simpa using hg.free_iff hl.used x
    refine ⟨rfl, hhead, fun c l => ⟨fun h => ?_, fun h => h.of_follow hfollow hfree⟩, hfree,
      fun hc => ?_⟩
    · exact h.of_follow (fun x => (hfollow x).symm) fun x => (hfree x).symm
    · exact ((hcounted hc).trans (freeClusters_congr hfree)).trans hc.symm

/-- The root directory of the small volume. -/
def smallRoot : Node :=
  { smallFile.node with kind := .directory, fsCluster := 2, fsDirentLba := 0 }

theorem smallFs_ok : smallFs.Ok smallVol :=
  ⟨rfl, .inl rfl, fun _ h => absurd rfl h, fun h => absurd h (by decide)⟩

theorem smallRoot_chain : Chain smallVol (smallFs.fat smallVol) smallRoot.fsCluster [2] :=
  ⟨⟨by decide, show follow (smallFs.fat smallVol) 2 = none by decide⟩, by decide, by decide,
    by decide⟩

/-- There are three clusters more: two are had, eight are not. -/
theorem ensure_chain_all_or_nothing_small :
    (∃ new, Chain smallVol ((ensureChain smallVol smallRoot 3 smallFs).2.2.fat smallVol)
      (ensureChain smallVol smallRoot 3 smallFs).2.1.fsCluster ([2] ++ new) ∧ 3 ≤ ([2] ++ new).length) ∧
    (ensureChain smallVol smallRoot 9 smallFs).2.2.freeCount = 3 ∧
    ∀ c l, Chain smallVol ((ensureChain smallVol smallRoot 9 smallFs).2.2.fat smallVol) c l ↔
      Chain smallVol (smallFs.fat smallVol) c l := by
  have h := ensure_chain_all_or_nothing smallVol_geometry smallFs_ok smallRoot smallRoot_chain
  have hanswer : (ensureChain smallVol smallRoot 3 smallFs).1.isOk = true ∧
      (ensureChain smallVol smallRoot 9 smallFs).1.isOk = false := by decide
  constructor
  · have h := h 3
    rcases heq : ensureChain smallVol smallRoot 3 smallFs with ⟨_ | ⟨⟩, node, fs⟩
    · rw [heq] at hanswer
      cases hanswer.1
    · rw [heq] at h
      obtain ⟨new, hchain, hlen, -⟩ := h
      exact ⟨new, hchain, hlen⟩
  · have h := h 9
    rcases heq : ensureChain smallVol smallRoot 9 smallFs with ⟨_ | ⟨⟩, node, fs⟩
    · rw [heq] at h
      obtain ⟨-, -, hchains, -, hcount⟩ := h
      exact ⟨hcount (show smallFs.freeCount = freeClusters smallVol _ by decide), hchains⟩
    · rw [heq] at hanswer
      cases hanswer.2

end NovarisOS.Fat32
