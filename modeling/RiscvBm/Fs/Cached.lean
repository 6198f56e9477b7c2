import RiscvBm.Fs.ByteFile

/-!
# Directories

The entries of a directory are pieces of 16 bytes, so what `readi` and `writei` do to bytes says
what reading and writing an entry does to the entries (`readDirent_held`, `writeDirent_held`).

`Cached` is a state in which all directories have the size of a number of entries.
-/

namespace RiscvBm.Fs

open Bio (bsize Data)
open Bytes Slots Wp Function

variable {sb : Superblock} {n : ℕ} {disk disk' : ℕ → Data} {v v' : ℕ → Dinode} {d d' : Dinode}
  {i j b : ℕ} {s s' : St} {k : Ptr} {dirty dirty' : Option ℕ} {E : Panic → Prop} {N m : ℕ}

/-! ## §1  An entry -/

theorem direntSize_eq : direntSize = 16 := rfl

theorem Dinode.direntAt_eq : d.direntAt disk m = d.bytes disk (direntSize * m) direntSize := by
  unfold Dinode.direntAt
  split_ifs with h0
  · symm
    apply List.eq_replicate_iff.mpr
    refine ⟨Dinode.length_bytes, ?_⟩
    intro x hx
    obtain ⟨j, hj, rfl⟩ := List.mem_map.mp hx
    rw [List.mem_range, direntSize_eq] at hj
    have hdiv : (direntSize * m + j) / bsize = direntSize * m / bsize := by
      rw [bsize_eq, direntSize_eq]
      omega
    rw [Dinode.byte, hdiv, if_pos h0]
  · apply slice_eq_bytes h0
    rw [bsize_eq, direntSize_eq]
    omega

theorem readDirent_held (hr : Room sb n) (hN : N ≤ maxfile) (hsize : (v i).size.toNat ≤ N * bsize)
    (h : Held sb n dirty s v) (hk : Active s k i) (hm : m < (v i).size.toNat / direntSize)
    (e : Panic) :
    wp (readDirent k (direntSize * m) e) (fun de s' =>
      (∃ v', Extended sb n dirty N k i s v s' v') ∧ de = (v i).direntAt s.disk m ∧
      ((v i).Filled s.disk (v i).size.toNat → s' = s)) (Short sb N s.disk (v i)) s := by
  rw [direntSize_eq] at hm
  have hlt := (v i).size.isLt
  have hbytes : readBytes ((v i).contents s.disk) (direntSize * m) direntSize =
      (v i).direntAt s.disk m := by
    rw [readBytes, if_pos, Dinode.take_drop_contents, min_eq_left, Dinode.direntAt_eq]
    · rw [direntSize_eq]
      omega
    · rw [direntSize_eq]
      omega
    · rw [Dinode.length_contents, direntSize_eq]
      omega
  refine wp_bind (readi_held hr hN hsize h hk (by rw [direntSize_eq]; omega) (by decide)) ?_
  rw [hbytes]
  rintro _ s₁ ⟨hext, rfl, hsame⟩
  refine wp_require_bind (fun _ => wp_pure ⟨hext, rfl, hsame⟩) fun hlen => ?_
  rw [Dinode.direntAt_eq, Dinode.length_bytes] at hlen
  simp at hlen

/-- The bytes of `de` were written at the `m`-th entry. -/
theorem Stored.direntAt {de : List UInt8}
    (h : Stored (kernelSrc de) 0 (direntSize * m) direntSize disk d disk' d')
    (hj : direntSize * j + direntSize ≤ maxfile * bsize) :
    d'.direntAt disk' j = if j = m then de.takeD direntSize 0 else d.direntAt disk j := by
  rw [Dinode.direntAt_eq]
  split_ifs with hjm
  · subst hjm
    rw [← map_getD_range]
    apply List.map_congr_left
    intro q hq
    rw [List.mem_range] at hq
    rw [h.byte _ (by omega), if_pos (by omega), Nat.zero_add, Nat.add_sub_cancel_left]
    rfl
  · rw [Dinode.direntAt_eq]
    apply Dinode.bytes_congr
    intro p hp₁ hp₂
    rw [h.byte _ (by omega), if_neg]
    rw [direntSize_eq] at *
    omega

/-- An entry of a directory is written, the one after the last perhaps. -/
theorem Stored.ents {de : List UInt8}
    (h : Stored (kernelSrc de) 0 (direntSize * m) direntSize disk d disk' d') (hdir : d.type = tDir)
    (htype : d'.type = tDir) (hm : m ≤ d.size.toNat / direntSize)
    (hsize : d'.size.toNat = max d.size.toNat (direntSize * m + direntSize))
    (hmax : d'.size.toNat ≤ maxfile * bsize) :
    d'.ents disk' = place (d.ents disk) m (entryOf de) := by
  have hlen : (d.ents disk).length = _ := d.length_ents hdir
  have hlen' : (d'.ents disk').length = _ := d'.length_ents htype
  have hcount : d'.size.toNat / direntSize = max (d.size.toNat / direntSize) (m + 1) := by
    rw [hsize]
    rw [direntSize_eq] at *
    omega
  apply List.ext_getElem?
  intro j
  rw [getElem?_place (hlen ▸ hm)]
  by_cases hj : j < d'.size.toNat / direntSize
  · have hfit : direntSize * j + direntSize ≤ maxfile * bsize := by
      refine le_trans ?_ hmax
      rw [direntSize_eq] at *
      omega
    rw [Dinode.getElem?_ents htype hj, h.direntAt hfit]
    by_cases hjm : j = m
    · rw [if_pos hjm, if_pos hjm, entryOf_takeD]
    · rw [if_neg hjm, if_neg hjm, Dinode.getElem?_ents hdir (by omega)]
  · rw [List.getElem?_eq_none (by omega), if_neg (by omega), List.getElem?_eq_none (by omega)]

/-- Writing an entry inside of the blocks below `N`. -/
theorem writeDirent_held (hr : Room sb n) (hN : N ≤ maxfile)
    (hend : direntSize * m + direntSize ≤ N * bsize) (h : Held sb n none s v) (hk : Active s k i)
    (hm : m ≤ (v i).size.toNat / direntSize) (de : List UInt8) (e : Panic) :
    wp (writeDirent k de (direntSize * m) e) (fun _ s' => ∃ v', Changed sb n none N k i s v s' v' ∧
      (v' i).size.toNat = max (v i).size.toNat (direntSize * m + direntSize) ∧
      Stored (kernelSrc de) 0 (direntSize * m) direntSize s.disk (v i) s'.disk (v' i))
      (Short sb N s.disk (v i)) s := by
  have hoff : direntSize * m ≤ (v i).size.toNat := by
    rw [direntSize_eq] at *
    omega
  refine wp_bind (writei_held hr hN hoff hend (kernelSrc_mapped _ _ _) h hk) ?_
  rintro _ s' ⟨rfl, hpost⟩
  exact wp_require (fun _ => hpost) fun hne => by simp at hne

/-- A write that is refused ends in the panic of the caller. -/
theorem writeDirent_refused (h : Held sb n dirty s v) (hk : Active s k i)
    (hm : m ≤ (v i).size.toNat / direntSize) (hend : maxfile * bsize < direntSize * m + direntSize)
    (de : List UInt8) (e : Panic) :
    wp (writeDirent k de (direntSize * m) e) (fun _ _ => False) (fun e' => e' = e) s := by
  have hlt := (v i).size.isLt
  have hoff : direntSize * m < 2 ^ 32 := by
    rw [direntSize_eq] at *
    omega
  refine wp_bind (wp_error (writei_refused _ h hk hoff (by decide) (Or.inr hend))
    fun _ => False.elim) ?_
  rintro _ _ ⟨rfl, rfl⟩
  exact wp_require (fun hlen => absurd hlen (by decide)) fun _ => rfl

/-! ## §2  States with directories -/

/-- Directories have the size of a number of entries. -/
structure Cached (sb : Superblock) (n : ℕ) (dirty : Option ℕ) (s : St) (v : ℕ → Dinode) : Prop
    extends Held sb n dirty s v where
  shape : ∀ i < n, (v i).type = tDir → (v i).Shape

end RiscvBm.Fs
