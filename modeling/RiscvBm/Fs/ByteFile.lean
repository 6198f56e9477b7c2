import RiscvBm.Fs.Held

/-!
# Files are arrays of bytes

What `readi` and `writei` do to the bytes of one inode, for inodes with holes too: a block
that is missing reads as zeroes. The loops go block by block; `bytes_append` and `Stored.append`
put the pieces together.

The last section is about files without holes. There `readi` changes nothing, and the
contents of a file are a list that `writei` overwrites.
-/

namespace RiscvBm.Fs

open Bio (bsize Data)
open Bytes Wp Function

/-! ## §1  Bytes -/

/-- The byte at `p`; a block that the file does not have reads as zeroes. -/
def Dinode.byte (disk : ℕ → Data) (d : Dinode) (p : ℕ) : UInt8 :=
  if d.block disk (p / bsize) = 0 then 0
  else UInt8.ofNat (byteAt (disk (d.block disk (p / bsize))) (p % bsize))

/-- The bytes `[off, off + m)`. -/
def Dinode.bytes (disk : ℕ → Data) (d : Dinode) (off m : ℕ) : List UInt8 :=
  (List.range m).map fun j => d.byte disk (off + j)

/-- All bytes of the file. -/
def Dinode.contents (disk : ℕ → Data) (d : Dinode) : List UInt8 := d.bytes disk 0 d.size.toNat

variable {sb : Superblock} {n : ℕ} {disk disk' : ℕ → Data} {v v' : ℕ → Dinode} {d d' : Dinode}
  {i j b : ℕ} {s s' : St} {k : Ptr} {dirty : Option ℕ} {E : Panic → Prop} {N off m : ℕ}

theorem bsize_eq : bsize = 1024 := rfl

theorem div_bsize_lt {p : ℕ} (h : p < N * bsize) : p / bsize < N :=
  Nat.div_lt_of_lt_mul (by rwa [Nat.mul_comm])

theorem Dinode.length_bytes : (d.bytes disk off m).length = m := by
  rw [Dinode.bytes, List.length_map, List.length_range]

theorem Dinode.length_contents : (d.contents disk).length = d.size.toNat := length_bytes

theorem Dinode.getElem?_bytes (hj : j < m) :
    (d.bytes disk off m)[j]? = some (d.byte disk (off + j)) := by
  rw [Dinode.bytes, List.getElem?_map, List.getElem?_range hj, Option.map_some]

theorem Dinode.bytes_append (m' : ℕ) :
    d.bytes disk off m ++ d.bytes disk (off + m) m' = d.bytes disk off (m + m') := by
  unfold Dinode.bytes
  rw [List.range_add, List.map_append, List.map_map]
  congr 1
  apply List.map_congr_left
  intro j _
  rw [comp_apply, Nat.add_assoc]

theorem Dinode.bytes_congr
    (h : ∀ p, off ≤ p → p < off + m → d'.byte disk' p = d.byte disk p) :
    d'.bytes disk' off m = d.bytes disk off m := by
  apply List.map_congr_left
  intro j hj
  rw [List.mem_range] at hj
  exact h _ (Nat.le_add_right _ _) (Nat.add_lt_add_left hj _)

theorem Dinode.byte_congr {p : ℕ} (hblock : d'.block disk' (p / bsize) = d.block disk (p / bsize))
    (hdata : d.block disk (p / bsize) ≠ 0 →
      disk' (d.block disk (p / bsize)) = disk (d.block disk (p / bsize))) :
    d'.byte disk' p = d.byte disk p := by
  unfold Dinode.byte
  rw [hblock]
  split_ifs with h0
  · rfl
  · rw [hdata h0]

theorem Dinode.byte_of_zero {p : ℕ}
    (h : d.block disk (p / bsize) ≠ 0 → disk (d.block disk (p / bsize)) = zero) :
    d.byte disk p = 0 := by
  unfold Dinode.byte
  split_ifs with h0
  · rfl
  · rw [h h0, byteAt_zero]
    rfl

/-- New blocks that are zero do not change the bytes. -/
theorem Grows.byte (h : Grows disk d disk' d') {p : ℕ} (hp : p < maxfile * bsize) :
    d'.byte disk' p = d.byte disk p := by
  rcases h _ (div_bsize_lt hp) with ⟨hsame, hdata⟩ | ⟨h0, hnew⟩
  · exact Dinode.byte_congr hsame hdata
  · rw [Dinode.byte_of_zero hnew, Dinode.byte_of_zero fun hne => absurd h0 hne]

theorem SameBlocks.byte (h : SameBlocks n disk v disk' j) (hj : j < n) (ht : (v j).type ≠ 0)
    (p : ℕ) : (v j).byte disk' p = (v j).byte disk p := by
  refine Dinode.byte_congr (h.slot hj ht _) ?_
  have hdata := h (fileSlot (p / bsize))
  rw [blockAt_eq hj ht] at hdata
  exact hdata

/-- A piece of one block, as the loop of `readi` copies it. -/
theorem slice_eq_bytes (h0 : d.block disk (off / bsize) ≠ 0) (hfit : off % bsize + m ≤ bsize) :
    slice (disk (d.block disk (off / bsize))) (off % bsize) m = d.bytes disk off m := by
  apply List.map_congr_left
  intro j hj
  rw [List.mem_range] at hj
  rw [bsize_eq] at hfit
  have hdiv : (off + j) / bsize = off / bsize := by
    rw [bsize_eq]
    omega
  have hmod : (off + j) % bsize = off % bsize + j := by
    rw [bsize_eq]
    omega
  rw [Dinode.byte, hdiv, hmod, if_neg h0]

/-! ## §2  `readi` -/

theorem readiLoop_held (hr : Room sb n) (hN : N ≤ maxfile) {fuel c : ℕ} (hfuel : c ≤ fuel)
    (hend : off + c ≤ N * bsize) (h : Held sb n dirty s v) (hk : Active s k i) :
    wp (readiLoop k fuel off c) (fun l s' => (∃ v', Extended sb n dirty N k i s v s' v') ∧
      l = (v i).bytes s.disk off c ∧
      ((∀ p, off ≤ p → p < off + c → (v i).block s.disk (p / bsize) ≠ 0) → s' = s))
      (Short sb N s.disk (v i)) s := by
  -- every round reads up to the end of its block
  induction fuel generalizing off c s v with
  | zero =>
    obtain rfl : c = 0 := Nat.le_zero.mp hfuel
    exact wp_pure ⟨⟨v, Extended.refl h hk⟩, rfl, fun _ => rfl⟩
  | succ fuel ih =>
    apply wp_ite
    · rintro rfl
      exact wp_pure ⟨⟨v, Extended.refl h hk⟩, rfl, fun _ => rfl⟩
    intro hc
    have hbn : off / bsize < N := div_bsize_lt (by omega)
    refine wp_get (wp_bind (bmap_held hr h hk hbn hN) ?_)
    rintro b s₁ ⟨⟨v₁, hext, hb, hne⟩, hfound⟩
    apply wp_bread
    generalize hm : min c (bsize - off % bsize) = m
    have hfit : 0 < m ∧ m ≤ c ∧ off % bsize + m ≤ bsize := by
      rw [bsize_eq] at hm ⊢
      omega
    have hbytes : ∀ p, p < off + c → (v₁ i).byte s₁.disk p = (v i).byte s.disk p := by
      intro p hp
      refine hext.grows.byte (lt_of_lt_of_le hp (hend.trans ?_))
      exact Nat.mul_le_mul_right _ hN
    have hend' : (off + m) + (c - m) ≤ N * bsize := by omega
    have hrest := ih (Nat.le_of_lt_succ (by omega)) hend' hext.held hext.active
    refine wp_bind (wp_error hrest fun _ he => hext.short he) ?_
    rintro _ s₂ ⟨⟨v₂, hext₂⟩, rfl, hfound₂⟩
    refine wp_pure ⟨⟨v₂, hext.trans hext₂⟩, ?_, ?_⟩
    · rw [hb, slice_eq_bytes (hb ▸ hne) hfit.2.2, Dinode.bytes_append,
        Nat.add_sub_cancel' hfit.2.1]
      exact Dinode.bytes_congr fun p _ hp => hbytes p hp
    · intro hall
      have hblock := hall off le_rfl (by omega)
      rw [hfound₂, hfound hblock]
      intro p hp₁ hp₂
      have hold := hall p (by omega) (by omega)
      rw [hext.block hold]
      exact hold

/-- What `readi` returns for a file with the contents `l`. -/
def readBytes (l : List UInt8) (off m : ℕ) : List UInt8 :=
  if off ≤ l.length ∧ off + m < 2 ^ 32 then (l.drop off).take m else []

theorem Dinode.take_drop_contents (hoff : off ≤ d.size.toNat) :
    ((d.contents disk).drop off).take m = d.bytes disk off (min m (d.size.toNat - off)) := by
  have hsplit : d.contents disk = d.bytes disk 0 off ++ d.bytes disk off (d.size.toNat - off) := by
    have happ : d.bytes disk 0 off ++ d.bytes disk (0 + off) (d.size.toNat - off) = _ :=
      d.bytes_append _
    rw [Nat.zero_add, Nat.add_sub_cancel' hoff] at happ
    exact happ.symm
  rw [hsplit, List.drop_left' length_bytes]
  unfold Dinode.bytes
  rw [← List.map_take, List.take_range]

/-- `readi` of an inode whose blocks are below `N`. -/
theorem readi_held (hr : Room sb n) (hN : N ≤ maxfile) (hsize : (v i).size.toNat ≤ N * bsize)
    (h : Held sb n dirty s v) (hk : Active s k i) (hoff : off < 2 ^ 32) (hm : m < 2 ^ 32) :
    wp (readi k off m) (fun l s' => (∃ v', Extended sb n dirty N k i s v s' v') ∧
      l = readBytes ((v i).contents s.disk) off m ∧
      ((v i).Filled s.disk (v i).size.toNat → s' = s)) (Short sb N s.disk (v i)) s := by
  have hcopy : (s.inode k).size = (v i).size := congrArg Dinode.size (h.copy_eq hk)
  have hlen : ((v i).contents s.disk).length = (v i).size.toNat := Dinode.length_contents
  apply wp_get
  rw [hcopy]
  apply wp_ite
  · intro hout
    refine wp_pure ⟨⟨v, Extended.refl h hk⟩, ?_, fun _ => rfl⟩
    rw [readBytes, if_neg]
    rw [hlen]
    omega
  · intro hin
    generalize hc : (if (v i).size.toNat < (off + m) % 2 ^ 32 then
      (v i).size.toNat - off else m) = c
    have hcount : off ≤ (v i).size.toNat ∧ off + m < 2 ^ 32 ∧
        c = min m ((v i).size.toNat - off) := by
      rw [← hc]
      split_ifs <;> omega
    obtain ⟨hle, hsum, rfl⟩ := hcount
    refine wp_post (readiLoop_held hr hN le_rfl (by omega) h hk) ?_
    rintro _ s' ⟨hext, rfl, hfound⟩
    refine ⟨hext, ?_, ?_⟩
    · rw [readBytes, if_pos (by rw [hlen]; exact ⟨hle, hsum⟩), Dinode.take_drop_contents hle]
    · intro hfilled
      apply hfound
      intro p _ hp
      have hps : p < (v i).size.toNat := by omega
      refine hfilled _ (lt_of_lt_of_le (div_bsize_lt (lt_of_lt_of_le hps hsize)) hN) ?_
      exact lt_of_le_of_lt (Nat.div_mul_le_self _ _) hps

/-! ## §3  `writei` -/

/-- The bytes `[off, off + m)` are those of `src` from `tot` on, and the others are as before. -/
structure Stored (src : Src) (tot off m : ℕ) (disk : ℕ → Data) (d : Dinode) (disk' : ℕ → Data)
    (d' : Dinode) : Prop where
  byte : ∀ p < maxfile * bsize, d'.byte disk' p =
    if off ≤ p ∧ p < off + m then (src (tot + (p - off))).getD 0 else d.byte disk p
  block : ∀ p, off ≤ p → p < off + m → d'.block disk' (p / bsize) ≠ 0

variable {src : Src} {tot : ℕ}

theorem Stored.refl (src : Src) (tot off : ℕ) (disk : ℕ → Data) (d : Dinode) :
    Stored src tot off 0 disk d disk d := by
  constructor
  · intro p _
    rw [if_neg (by omega)]
  · intro p h₁ h₂
    omega

theorem Stored.append {disk₂ : ℕ → Data} {d₂ : Dinode} {m' : ℕ}
    (h₁ : Stored src tot off m disk d disk' d')
    (h₂ : Stored src (tot + m) (off + m) m' disk' d' disk₂ d₂)
    (hkeep : ∀ bn, d'.block disk' bn ≠ 0 → d₂.block disk₂ bn = d'.block disk' bn) :
    Stored src tot off (m + m') disk d disk₂ d₂ := by
  constructor
  · intro p hp
    rw [h₂.byte p hp, h₁.byte p hp]
    by_cases hin : off + m ≤ p ∧ p < off + m + m'
    · rw [if_pos hin, if_pos (by omega)]
      congr 2
      omega
    · rw [if_neg hin]
      by_cases hfst : off ≤ p ∧ p < off + m
      · rw [if_pos hfst, if_pos (by omega)]
      · rw [if_neg hfst, if_neg (by omega)]
  · intro p hp₁ hp₂
    by_cases hin : p < off + m
    · have hne := h₁.block p hp₁ hin
      rw [hkeep _ hne]
      exact hne
    · exact h₂.block p (by omega) (by omega)

/-- The bytes were the same when the file grew. -/
theorem Stored.of_grows {d₀ : Dinode} {disk₀ : ℕ → Data} (hg : Grows disk₀ d₀ disk d)
    (h : Stored src tot off m disk d disk' d') : Stored src tot off m disk₀ d₀ disk' d' := by
  refine ⟨?_, h.block⟩
  intro p hp
  rw [h.byte p hp, hg.byte hp]

theorem Src.mapped_iff {c : ℕ} : src.mapped tot c = true ↔ ∀ j < c, (src (tot + j)).isSome := by
  rw [Src.mapped, List.all_eq_true]
  simp only [List.mem_range]

/-- Copying from memory that is mapped. -/
theorem byteAt_copyIn_mapped (data : Data) {q : ℕ} (hq : q < bsize)
    (hmapped : src.mapped tot m = true) :
    byteAt (copyIn data off src tot m) q =
      if off ≤ q ∧ q < off + m then ((src (tot + (q - off))).getD 0).toNat else byteAt data q := by
  have hq' : q < 1024 := hq
  unfold byteAt copyIn
  simp only [dif_pos hq]
  by_cases hin : off ≤ q ∧ q < off + m
  · have hpart : src.mapped tot (q - off + 1) = true := by
      rw [Src.mapped_iff] at hmapped ⊢
      intro j hj
      exact hmapped j (by omega)
    rw [if_pos hin, if_pos ⟨hin.1, hin.2, hpart⟩]
  · rw [if_neg hin, if_neg fun hc => hin ⟨hc.1, hc.2.1⟩]

/-- A block of the contents is overwritten in the cache. -/
theorem Held.setBlock (hr : Room sb n) (h : Held sb n (some i) s v) (hk : Active s k i)
    (hb : (v i).block s.disk bn = b) (h0 : b ≠ 0) (data : Data) :
    Changed sb n (some i) N k i s v (setBlock s b data) v ∧
      ∀ sl, (v i).slot (update s.disk b data) sl = (v i).slot s.disk sl := by
  obtain ⟨hagree, hsame, hslot, hapart⟩ := h.apart.write hr (h.inum_lt hk) (h.type_ne hk) hb h0 data
  have hdinode : ∀ j < n, dinode sb (update s.disk b data) j = dinode sb s.disk j := by
    intro j hj
    unfold dinode
    rw [hagree _ (Or.inr (hr.iblock_notMem hj))]
  have hbm := hagree _ (Or.inl rfl)
  refine ⟨?_, hslot⟩
  constructor
  case held =>
    apply h.setDisk (fun _ hne => hne) hdinode _ hapart
    intro j hj hne htj
    exact (hsame j fun heq => hne (by rw [heq])).grows hj htj
  case active => exact ⟨hk.ref, hk.valid, hk.inum⟩
  case entries => exact fun _ _ => rfl
  case ident => rfl
  case other => exact fun j hj => ⟨rfl, hsame j hj⟩
  case dinodes => exact fun j hj _ => hdinode j hj
  case fresh => exact fun c hc hu => Or.inl ((hr.used_congr hbm hc.1).mp hu)
  case type => rfl
  case nlink => rfl
  case slot => exact fun sl _ => hslot sl
  case space =>
    have hlack := lack_congr (N := N) hslot
    show avail sb (update s.disk b _) + _ = _ + lack N (update s.disk b _) _
    rw [avail_congr hr.toLayout hbm, hlack]

/-- One round of the loop of `writei`, once the block is there. -/
theorem Held.store (h : Held sb n (some i) s v) (hk : Active s k i)
    (hbn : off / bsize < maxfile) (hb : (v i).block s.disk (off / bsize) = b) (h0 : b ≠ 0)
    (hfit : off % bsize + m ≤ bsize) (hmapped : src.mapped tot m = true)
    (hslot : ∀ sl, (v i).slot (update s.disk b (copyIn (s.disk b) (off % bsize) src tot m)) sl =
      (v i).slot s.disk sl) :
    Stored src tot off m s.disk (v i)
      (update s.disk b (copyIn (s.disk b) (off % bsize) src tot m)) (v i) := by
  constructor
  · intro p hp
    have hblock : (v i).block (update s.disk b
        (copyIn (s.disk b) (off % bsize) src tot m)) (p / bsize) =
        (v i).block s.disk (p / bsize) := hslot _
    by_cases hdiv : p / bsize = off / bsize
    · -- the block that was written
      rw [Dinode.byte, Dinode.byte, hblock, hdiv, hb, if_neg h0, if_neg h0, update_self,
        byteAt_copyIn_mapped _ (Nat.mod_lt _ (by decide)) hmapped]
      have hiff : (off % bsize ≤ p % bsize ∧ p % bsize < off % bsize + m) ↔
          off ≤ p ∧ p < off + m := by
        rw [bsize_eq] at *
        omega
      by_cases hin : off ≤ p ∧ p < off + m
      · rw [if_pos hin, if_pos (hiff.mpr hin), UInt8.ofNat_toNat]
        congr 3
        rw [bsize_eq] at *
        omega
      · rw [if_neg hin, if_neg (hiff.not.mpr hin)]
    · rw [if_neg]
      · apply Dinode.byte_congr hblock
        intro hne
        apply update_of_ne
        intro heq
        exact hdiv (h.apart.block_inj (h.inum_lt hk) (h.type_ne hk) (div_bsize_lt hp) hbn hne
          (heq.trans hb.symm))
      · intro hin
        apply hdiv
        rw [bsize_eq] at *
        omega
  · intro p hp₁ hp₂
    have hdiv : p / bsize = off / bsize := by
      rw [bsize_eq] at *
      omega
    rw [hdiv, Dinode.block, hslot]
    exact ne_of_eq_of_ne hb h0

/-- `c` of `m` bytes were written at `off`: all of them if `src` can be read. -/
structure Written (src : Src) (tot off m c : ℕ) (disk : ℕ → Data) (d : Dinode) (disk' : ℕ → Data)
    (d' : Dinode) : Prop where
  le : c ≤ m
  block : ∀ p, off ≤ p → p < off + c → d'.block disk' (p / bsize) ≠ 0
  all : src.mapped tot m = true → c = m ∧ Stored src tot off m disk d disk' d'

theorem Written.refl (src : Src) (tot off : ℕ) (disk : ℕ → Data) (d : Dinode) :
    Written src tot off 0 0 disk d disk d :=
  ⟨le_rfl, fun _ _ _ => by omega, fun _ => ⟨rfl, Stored.refl _ _ _ _ _⟩⟩

theorem Written.append {disk₂ : ℕ → Data} {d₂ : Dinode} {m' c : ℕ}
    (h₁ : Stored src tot off m disk d disk' d')
    (h₂ : Written src (tot + m) (off + m) m' c disk' d' disk₂ d₂)
    (hkeep : ∀ bn, d'.block disk' bn ≠ 0 → d₂.block disk₂ bn = d'.block disk' bn) :
    Written src tot off (m + m') (m + c) disk d disk₂ d₂ := by
  refine ⟨Nat.add_le_add_left h₂.le m, fun p hp₁ hp₂ => ?_, fun hmapped => ?_⟩
  · by_cases hin : p < off + m
    · have hne := h₁.block p hp₁ hin
      rwa [hkeep _ hne]
    · exact h₂.block p (by omega) (by omega)
  · rw [Src.mapped_iff] at hmapped
    obtain ⟨rfl, hst⟩ := h₂.all <| Src.mapped_iff.mpr fun j hj => by
      rw [Nat.add_assoc]
      exact hmapped (m + j) (by omega)
    exact ⟨rfl, h₁.append hst hkeep⟩

theorem bmap_throws (hbn : maxfile ≤ bn) :
    wp (bmap k bn) (fun _ _ => False) (fun e => e = .bmap) s := by
  unfold maxfile at hbn
  unfold bmap
  rw [if_neg (by omega), if_neg (by omega)]
  exact wp_throw rfl

/-- `bmap` panics when there are no blocks, or after the last block that a file can have. -/
def Fails (sb : Superblock) (N : ℕ) (disk : ℕ → Data) (d : Dinode) (last : ℕ) (e : Panic) : Prop :=
  Short sb N disk d e ∨ e = .bmap ∧ N * bsize < last

theorem writeiLoop_held (hr : Room sb n) (hN : N ≤ maxfile) {c fuel : ℕ} (hfuel : c - tot ≤ fuel)
    (hend : off + (c - tot) ≤ N * bsize ∨ N = maxfile) (h : Held sb n (some i) s v)
    (hk : Active s k i) :
    wp (writeiLoop k src c fuel tot off) (fun r s' => ∃ w, r = (tot + w, off + w) ∧
      (w = 0 ∨ off + w ≤ N * bsize) ∧
      ∃ v', Changed sb n (some i) N k i s v s' v' ∧ (v' i).size = (v i).size ∧
        Written src tot off (c - tot) w s.disk (v i) s'.disk (v' i))
      (Fails sb N s.disk (v i) (off + (c - tot))) s := by
  induction fuel generalizing tot off s v with
  | zero =>
    rw [Nat.le_zero.mp hfuel]
    exact wp_pure ⟨0, rfl, Or.inl rfl, v, Changed.refl h hk, rfl, Written.refl _ _ _ _ _⟩
  | succ fuel ih =>
    apply wp_ite
    · intro hlt
      by_cases hbn : off / bsize < N
      · refine wp_get (wp_bind (wp_error (bmap_held hr h hk hbn hN) fun _ => Or.inl) ?_)
        rintro b s₁ ⟨⟨v₁, hext, hb, hne⟩, -⟩
        apply wp_bread
        apply wp_modify_bind
        generalize hm : min (c - tot) (bsize - off % bsize) = m
        have hfit : m ≤ c - tot ∧ 0 < m ∧ off % bsize + m ≤ bsize ∧ off + m ≤ N * bsize := by
          rw [bsize_eq] at hm hbn ⊢
          omega
        obtain ⟨hle, hpos, hfit, hin⟩ := hfit
        obtain ⟨hch, hslot⟩ := hext.held.setBlock (N := N) hr hext.active hb.symm hne
          (copyIn (s₁.disk b) (off % bsize) src tot m)
        have hch₁ := hext.toChanged.trans hch
        apply wp_ite
        · intro hpiece
          have hst := hext.held.store hext.active (lt_of_lt_of_le hbn hN) hb.symm hne hfit hpiece
            hslot
          have hlast : off + m + (c - (tot + m)) = off + (c - tot) := by omega
          refine wp_mono (ih (by omega) (by rwa [hlast]) hch.held hch.active) ?_ ?_
          · rintro _ s₂ ⟨w, rfl, hw0, v₂, hch₂, hsize₂, hw⟩
            refine ⟨m + w, ?_, ?_, v₂, hch₁.trans hch₂, hsize₂.trans hext.size, ?_⟩
            · rw [Nat.add_assoc, Nat.add_assoc]
            · omega
            · have happ := Written.append (hst.of_grows hext.grows) hw fun bn => hch₂.block
              rwa [show m + (c - (tot + m)) = c - tot by omega] at happ
          · rw [hlast]
            exact fun _ he => he.imp_left fun he => hch₁.short he
        · -- the copy stopped before the end of the piece
          intro hpiece
          refine wp_pure ⟨0, rfl, Or.inl rfl, v₁, hch₁, hext.size, Nat.zero_le _,
            fun _ _ _ => by omega, ?_⟩
          intro hmapped
          rw [Src.mapped_iff] at hmapped
          exact absurd (Src.mapped_iff.mpr fun j hj => hmapped j (by omega)) hpiece
      · have hout : N * bsize ≤ off := by
          rw [bsize_eq] at hbn ⊢
          omega
        have hmax : N = maxfile := hend.resolve_left (by omega)
        refine wp_get (wp_bind (wp_error (bmap_throws (hmax ▸ not_lt.mp hbn))
          fun e he => Or.inr ⟨he, by omega⟩) fun _ _ => False.elim)
    · intro hge
      rw [show c - tot = 0 by omega]
      exact wp_pure ⟨0, rfl, Or.inl rfl, v, Changed.refl h hk, rfl, Written.refl _ _ _ _ _⟩

/-- `if(off > ip->size) ip->size = off; iupdate(ip);` -/
theorem putSize_held (hr : Room sb n) (h : Held sb n (some i) s v) (hk : Active s k i)
    (hoff : off < 2 ^ 32) :
    wp (putInode k fun ip => if ip.size.toNat < off then { ip with size := .ofNat 32 off } else ip)
      (fun _ s' => ∃ d, Changed sb n none N k i s v s' (update v i d) ∧ dinode sb s'.disk i = d ∧
        d.size.toNat = max (v i).size.toNat off ∧
        ∀ bn, d.block s'.disk bn = (v i).block s.disk bn ∧
          ((v i).block s.disk bn ≠ 0 →
            s'.disk ((v i).block s.disk bn) = s.disk ((v i).block s.disk bn))) E s := by
  have hi := h.inum_lt hk
  have ht := h.type_ne hk
  have hcopy := h.copy_eq hk
  generalize hd : (if (v i).size.toNat < off then
    { v i with size := .ofNat 32 off } else v i) = d
  have hfields : d.type = (v i).type ∧ d.nlink = (v i).nlink ∧ d.addrs = (v i).addrs := by
    rw [← hd]
    split_ifs <;> exact ⟨rfl, rfl, rfl⟩
  obtain ⟨htype, hnlink, haddrs⟩ := hfields
  have hslots : ∀ sl, d.slot s.disk sl = (v i).slot s.disk sl := by
    intro sl
    cases sl <;> simp only [Dinode.slot, haddrs]
  have hapart : Apart sb n s.disk (update v i d) := by
    apply h.apart.keep hr fun _ _ => rfl
    intro _ _ sl _
    rw [blockAt_eq hi ht, hslots]
  have hput := putInode_held (E := E) hr h hk (fun j hj heq => hj (Option.some.inj heq).symm)
    (f := fun ip => if ip.size.toNat < off then { ip with size := .ofNat 32 off } else ip)
    (d := d) ?_ ?_ ?_ (htype ▸ ht) hapart
  · refine wp_post hput ?_
    rintro _ s' ⟨hheld, hk', hagree, hdinode, hentries, hident⟩
    have hself : update v i d i = d := update_self ..
    have hdata : ∀ j sl, blockAt n s.disk v (j, sl) ≠ 0 →
        s'.disk (blockAt n s.disk v (j, sl)) = s.disk (blockAt n s.disk v (j, sl)) :=
      fun j sl hne => hagree _ (Or.inr (h.apart.mem hne))
    have hslot' : ∀ sl, d.slot s'.disk sl = (v i).slot s.disk sl := by
      intro sl
      rw [← hslots sl]
      apply Dinode.slot_congr
      intro hne
      have hind := hdata i (.addr indirect)
      rw [blockAt_eq hi ht] at hind
      simp only [Dinode.slot] at hind
      rw [haddrs] at hne ⊢
      exact hind hne
    refine ⟨d, ?_, (hdinode i).trans (if_pos rfl), ?_, ?_⟩
    · constructor
      case held => exact hheld
      case active => exact hk'
      case entries => exact hentries
      case ident => exact hident
      case other => exact fun j hj => ⟨update_of_ne hj _ _, hdata j⟩
      case dinodes => exact fun j _ hj => (hdinode j).trans (if_neg hj)
      case fresh =>
        exact fun c hc hu => Or.inl ((hr.used_congr (hagree _ (Or.inl rfl)) hc.1).mp hu)
      case type => rw [hself, htype]
      case nlink => rw [hself, hnlink]
      case slot =>
        intro sl _
        rw [hself, hslot']
      case space =>
        rw [hself, avail_congr hr.toLayout (hagree _ (Or.inl rfl)), lack_congr hslot']
    · rw [← hd]
      split_ifs with hlt
      · rw [max_eq_right hlt.le]
        exact toNat_ofNat_of_lt hoff
      · rw [max_eq_left (not_lt.mp hlt)]
    · intro bn
      refine ⟨hslot' _, ?_⟩
      have hbn := hdata i (fileSlot bn)
      rw [blockAt_eq hi ht] at hbn
      exact hbn
  · show Inode.toDinode (if (s.inode k).size.toNat < off then _ else s.inode k) = d
    rw [← hd, ← hcopy]
    split_ifs <;> rfl
  · show Inode.ident (if (s.inode k).size.toNat < off then _ else s.inode k) = _
    split_ifs <;> rfl
  · show Inode.valid (if (s.inode k).size.toNat < off then _ else s.inode k) = true
    split_ifs <;> exact hk.valid

/-- `writei` that is not refused. -/
theorem writei_accepted (hr : Room sb n) (hN : N ≤ maxfile) (hoff : off ≤ (v i).size.toNat)
    (hmod : off ≤ (off + m) % 2 ^ 32) (hmax : (off + m) % 2 ^ 32 ≤ maxfile * bsize)
    (hend : off + m ≤ N * bsize ∨ N = maxfile) (h : Held sb n none s v) (hk : Active s k i) :
    wp (writei k src off m) (fun r s' => ∃ c : ℕ, r = c ∧ ∃ v', Changed sb n none N k i s v s' v' ∧
      dinode sb s'.disk i = v' i ∧ (v' i).size.toNat = max (v i).size.toNat (off + c) ∧
      Written src 0 off m c s.disk (v i) s'.disk (v' i)) (Fails sb N s.disk (v i) (off + m)) s := by
  have hcopy : (s.inode k).size = (v i).size := congrArg Dinode.size (h.copy_eq hk)
  have hdirty : Held sb n (some i) s v :=
    { h with disk := fun j hj _ => h.disk j hj (by simp) }
  apply wp_get
  rw [hcopy, if_neg (by omega), if_neg (not_lt.mpr hmax)]
  refine wp_bind (writeiLoop_held hr hN (Nat.sub_le m 0) hend hdirty hk) ?_
  rw [Nat.sub_zero]
  rintro _ s₁ ⟨c, rfl, hc, v₁, hch, hsize, hw⟩
  have hlt : off + c < 2 ^ 32 := by
    have hsize := (v i).size.isLt
    rcases hc with rfl | hc
    · exact lt_of_le_of_lt hoff hsize
    · exact lt_of_le_of_lt (hc.trans (Nat.mul_le_mul_right _ hN)) (by decide)
  refine wp_bind (putSize_held (N := N) hr hch.held hch.active hlt) ?_
  rintro _ s₂ ⟨d, hch₂, hd, hsize₂, hblock⟩
  have hself : update v₁ i d i = d := update_self ..
  refine wp_pure ⟨c, by simp, _, hch.trans hch₂, by rw [hself, hd], ?_, hw.le, ?_, ?_⟩
  · rw [hself, hsize₂, hsize]
  · intro p hp₁ hp₂
    rw [hself, (hblock _).1]
    exact hw.block p hp₁ hp₂
  · intro hmapped
    obtain ⟨rfl, hst⟩ := hw.all hmapped
    refine ⟨rfl, fun p hp => ?_, fun p hp₁ hp₂ => ?_⟩
    · rw [hself, ← hst.byte p hp]
      exact Dinode.byte_congr (hblock _).1 (hblock _).2
    · rw [hself, (hblock _).1]
      exact hst.block p hp₁ hp₂

/-- `writei` in the range that a file can have. -/
theorem writei_held (hr : Room sb n) (hN : N ≤ maxfile) (hoff : off ≤ (v i).size.toNat)
    (hend : off + m ≤ N * bsize) (hmapped : src.mapped 0 m = true) (h : Held sb n none s v)
    (hk : Active s k i) :
    wp (writei k src off m) (fun r s' => r = (m : ℤ) ∧ ∃ v', Changed sb n none N k i s v s' v' ∧
      (v' i).size.toNat = max (v i).size.toNat (off + m) ∧
      Stored src 0 off m s.disk (v i) s'.disk (v' i)) (Short sb N s.disk (v i)) s := by
  have hmax : off + m ≤ maxfile * bsize := hend.trans (Nat.mul_le_mul_right _ hN)
  have hmod : (off + m) % 2 ^ 32 = off + m :=
    Nat.mod_eq_of_lt (lt_of_le_of_lt hmax (by decide))
  refine wp_mono (writei_accepted hr hN hoff (by omega) (by rwa [hmod]) (Or.inl hend) h hk) ?_ ?_
  · rintro _ s' ⟨c, rfl, v', hch, -, hsize, hw⟩
    obtain ⟨rfl, hst⟩ := hw.all hmapped
    exact ⟨rfl, v', hch, hsize, hst⟩
  · exact fun e he => he.resolve_right fun he => absurd he.2 (not_lt.mpr hend)

/-! ## §4  Files without holes -/

/-- Every block below the size of an inode is allocated. -/
structure Files (sb : Superblock) (n : ℕ) (s : St) (v : ℕ → Dinode) : Prop
    extends Held sb n none s v where
  blocks : ∀ i < n, (v i).type ≠ 0 → ∀ bn, bn * bsize < (v i).size.toNat →
    bn < maxfile ∧ (v i).block s.disk bn ≠ 0

theorem le_blocksFor (m : ℕ) : m ≤ blocksFor m * bsize := by
  unfold blocksFor
  rw [bsize_eq]
  omega

theorem lt_blocksFor {bn : ℕ} : bn < blocksFor m ↔ bn * bsize < m := by
  unfold blocksFor
  rw [bsize_eq]
  omega

theorem blocksFor_le_maxfile (h : m ≤ maxfile * bsize) : blocksFor m ≤ maxfile := by
  unfold blocksFor maxfile ndirect nindirect at *
  rw [bsize_eq] at *
  omega

theorem Files.filled (h : Files sb n s v) (hi : i < n) (ht : (v i).type ≠ 0) :
    (v i).Filled s.disk (v i).size.toNat :=
  fun bn _ hlt => (h.blocks i hi ht bn hlt).2

theorem Files.blocksFor_le (h : Files sb n s v) (hi : i < n) (ht : (v i).type ≠ 0) :
    blocksFor (v i).size.toNat ≤ maxfile := by
  by_contra hlt
  have hbn := (h.blocks i hi ht maxfile (lt_blocksFor.mp (not_le.mp hlt))).1
  exact lt_irrefl _ hbn

theorem indirect_ne_zero {bn : ℕ} (hbn : ¬ bn < ndirect) (hne : d.block disk bn ≠ 0) :
    (d.addrs indirect).toNat ≠ 0 := by
  intro h0
  apply hne
  unfold Dinode.block fileSlot
  rw [if_neg hbn]
  exact if_pos h0

/-- A file without holes needs no blocks to be read. -/
theorem lack_eq_zero (h : ∀ bn < N, d.block disk bn ≠ 0) : lack N disk d = 0 := by
  rw [lack, Finset.card_eq_zero, Finset.filter_eq_empty_iff]
  intro sl hsl
  rw [needs, Finset.mem_union, Finset.mem_image] at hsl
  rcases hsl with ⟨bn, hbn, rfl⟩ | hind
  · exact h bn (Finset.mem_range.mp hbn)
  · split_ifs at hind with hlt
    · rw [Finset.mem_singleton.mp hind]
      -- the last block is one that the indirect block refers to
      have hlast : ¬ N - 1 < ndirect := by omega
      exact indirect_ne_zero hlast (h _ (by omega))
    · exact absurd hind (Finset.notMem_empty _)

theorem Files.readi (hr : Room sb n) (h : Files sb n s v) (hk : Active s k i) (hoff : off < 2 ^ 32)
    (hm : m < 2 ^ 32) : readi k off m s = .ok (readBytes ((v i).contents s.disk) off m, s) := by
  have hi := h.inum_lt hk
  have ht := h.type_ne hk
  have hlack : lack (blocksFor (v i).size.toNat) s.disk (v i) = 0 :=
    lack_eq_zero fun bn hbn => (h.blocks i hi ht bn (lt_blocksFor.mp hbn)).2
  have hread := readi_held hr (h.blocksFor_le hi ht) (le_blocksFor _) h.toHeld hk hoff hm
  obtain ⟨l, s', hrun, -, rfl, hsame⟩ := exists_of_wp
    (wp_error hread fun e => not_short (hlack ▸ Nat.zero_le _))
  rw [hrun, hsame (h.filled hi ht)]

/-- `l` with `w` written over it at `off`. -/
def overwrite (l : List UInt8) (off : ℕ) (w : List UInt8) : List UInt8 :=
  l.take off ++ w ++ l.drop (off + w.length)

/-- The first `m` bytes of a source. -/
def Src.bytes (src : Src) (m : ℕ) : List UInt8 := (List.range m).map fun j => (src j).getD 0

theorem Stored.contents (h : Stored src 0 off m disk d disk' d') (hoff : off ≤ d.size.toNat)
    (hsize : d'.size.toNat = max d.size.toNat (off + m)) (hmax : d'.size.toNat ≤ maxfile * bsize) :
    d'.contents disk' = overwrite (d.contents disk) off (src.bytes m) := by
  have hlen : (src.bytes m).length = m := by
    rw [Src.bytes, List.length_map, List.length_range]
  have htake : ((d.contents disk).take off).length = off := by
    rw [List.length_take, Dinode.length_contents, min_eq_left hoff]
  apply List.ext_getElem?
  intro j
  unfold overwrite
  rw [List.append_assoc]
  by_cases hj : j < d'.size.toNat
  · rw [Dinode.contents, Dinode.getElem?_bytes hj, h.byte _ (by omega), Nat.zero_add]
    by_cases hlt : j < off
    · rw [if_neg (by omega), List.getElem?_append_left (by omega), List.getElem?_take, if_pos hlt,
        Dinode.contents, Dinode.getElem?_bytes (by omega), Nat.zero_add]
    · rw [List.getElem?_append_right (by omega), htake]
      by_cases hin : j < off + m
      · rw [if_pos (by omega), List.getElem?_append_left (by omega), Src.bytes, List.getElem?_map,
          List.getElem?_range (by omega), Option.map_some, Nat.zero_add]
      · rw [if_neg (by omega), List.getElem?_append_right (by omega), hlen, List.getElem?_drop,
          Dinode.contents, Dinode.getElem?_bytes (by omega)]
        congr 2
        omega
  · rw [List.getElem?_eq_none, List.getElem?_eq_none]
    · rw [List.length_append, List.length_append, htake, hlen, List.length_drop,
        Dinode.length_contents]
      omega
    · rw [Dinode.length_contents]
      omega

/-- The files have no holes after `writei` either. -/
theorem Files.write (h : Files sb n s v) (hk : Active s k i)
    (hch : Changed sb n none N k i s v s' v') (hoff : off ≤ (v i).size.toNat)
    (hsize : (v' i).size.toNat = max (v i).size.toNat (off + m)) (hend : off + m ≤ maxfile * bsize)
    (hst : Stored src 0 off m s.disk (v i) s'.disk (v' i)) : Files sb n s' v' := by
  refine ⟨hch.held, ?_⟩
  intro j hj ht bn hbn
  by_cases hji : j = i
  · subst hji
    by_cases hold : bn * bsize < (v j).size.toNat
    · obtain ⟨hmax, hne⟩ := h.blocks j hj (h.type_ne hk) bn hold
      rw [hch.block hne]
      exact ⟨hmax, hne⟩
    · -- a block after the old end of the file
      have hin : bn * bsize < off + m := by omega
      have hne := hst.block (bn * bsize) (by omega) hin
      rw [Nat.mul_div_cancel _ (by decide)] at hne
      refine ⟨?_, hne⟩
      exact Nat.lt_of_mul_lt_mul_right (lt_of_lt_of_le hin hend)
  · obtain ⟨hv, hsame⟩ := hch.other j hji
    rw [hv] at ht hbn ⊢
    obtain ⟨hmax, hne⟩ := h.blocks j hj ht bn hbn
    refine ⟨hmax, ?_⟩
    rw [Dinode.block, hsame.slot hj ht]
    exact hne

theorem Changed.active_other (h : Changed sb n dirty N k i s v s' v') {l : Ptr} (hl : Active s l j)
    (hk : Active s k i) (hji : j ≠ i) : Active s' l j := by
  have hne : l ≠ k := by
    rintro rfl
    exact hji (hl.inum.symm.trans hk.inum)
  refine ⟨?_, ?_, ?_⟩ <;> rw [h.entries l hne]
  · exact hl.ref
  · exact hl.valid
  · exact hl.inum

theorem Changed.contents_other (h : Changed sb n dirty N k i s v s' v') (hj : j < n) (hji : j ≠ i)
    (ht : (v j).type ≠ 0) : (v' j).contents s'.disk = (v j).contents s.disk := by
  obtain ⟨hv, hsame⟩ := h.other j hji
  rw [hv]
  exact Dinode.bytes_congr fun p _ _ => hsame.byte hj ht p

/-- A write that is out of range is refused. -/
theorem writei_refused (src : Src) (h : Held sb n dirty s v) (hk : Active s k i)
    (hoff : off < 2 ^ 32)
    (hm : m < 2 ^ 32) (hout : (v i).size.toNat < off ∨ maxfile * bsize < off + m) :
    wp (writei k src off m) (fun r s' => r = -1 ∧ s' = s) noError s := by
  have hcopy : (s.inode k).size = (v i).size := congrArg Dinode.size (h.copy_eq hk)
  apply wp_get
  rw [hcopy]
  apply wp_ite
  · intro _
    exact wp_pure ⟨rfl, rfl⟩
  · intro hin
    rw [if_pos]
    · exact wp_pure ⟨rfl, rfl⟩
    · omega

/-- **Files are arrays of bytes.** `readi` returns a part of the contents, `writei` overwrites
a part of them and leaves the other inodes alone, and a write out of range does nothing. -/
theorem files_are_byte_arrays (hr : Room sb n) (h : Files sb n s v) (hk : Active s k i) :
    (∀ off m, off < 2 ^ 32 → m < 2 ^ 32 →
      readi k off m s = .ok (readBytes ((v i).contents s.disk) off m, s)) ∧
    (∀ (src : Src) (off m : ℕ), off ≤ (v i).size.toNat → off + m ≤ maxfile * bsize →
      src.mapped 0 m = true → lack (blocksFor (off + m)) s.disk (v i) ≤ avail sb s.disk →
      ∃ s' v', writei k src off m s = .ok ((m : ℤ), s') ∧ Files sb n s' v' ∧ Active s' k i ∧
        (v' i).size.toNat = max (v i).size.toNat (off + m) ∧
        (∀ off' m', off' < 2 ^ 32 → m' < 2 ^ 32 → readi k off' m' s' =
          .ok (readBytes (overwrite ((v i).contents s.disk) off (src.bytes m)) off' m', s')) ∧
        (∀ j < n, j ≠ i → v' j = v j ∧
          ((v j).type ≠ 0 → (v' j).contents s'.disk = (v j).contents s.disk)) ∧
        ∀ l j, Active s l j → j ≠ i → ∀ off' m', off' < 2 ^ 32 → m' < 2 ^ 32 →
          readi l off' m' s' = .ok (readBytes ((v j).contents s.disk) off' m', s')) ∧
    ∀ (src : Src) (off m : ℕ), off < 2 ^ 32 → m < 2 ^ 32 →
      (v i).size.toNat < off ∨ maxfile * bsize < off + m → writei k src off m s = .ok (-1, s) := by
  refine ⟨fun off m hoff hm => h.readi hr hk hoff hm, ?_, ?_⟩
  · intro src off m hoff hend hmapped hspace
    have hwrite := writei_held hr (blocksFor_le_maxfile hend) hoff (le_blocksFor _) hmapped
      h.toHeld hk
    obtain ⟨_, s', hrun, rfl, v', hch, hsize, hst⟩ := exists_of_wp
      (wp_error hwrite fun e => not_short hspace)
    have hfiles := h.write hk hch hoff hsize hend hst
    have hold : (v i).size.toNat ≤ maxfile * bsize := by
      refine (le_blocksFor _).trans (Nat.mul_le_mul_right _ ?_)
      exact h.blocksFor_le (h.inum_lt hk) (h.type_ne hk)
    have hcontents := hst.contents hoff hsize (by omega)
    refine ⟨s', v', hrun, hfiles, hch.active, hsize, ?_, ?_, ?_⟩
    · intro off' m' hoff' hm'
      rw [hfiles.readi hr hch.active hoff' hm', hcontents]
    · exact fun j hj hji => ⟨(hch.other j hji).1, hch.contents_other hj hji⟩
    · intro l j hl hji off' m' hoff' hm'
      rw [hfiles.readi hr (hch.active_other hl hk hji) hoff' hm',
        hch.contents_other (h.inum_lt hl) hji (h.type_ne hl)]
  · intro src off m hoff hm hout
    obtain ⟨_, _, hrun, rfl, rfl⟩ := exists_of_wp
      (writei_refused src h.toHeld hk hoff hm hout)
    exact hrun

/-- The log, a block of inodes and a bitmap, and four blocks of data. -/
def smallSb : Superblock := ⟨fsmagic, 38, 4, 2, 30, 2, 32, 33⟩

/-- The bitmap in which these four are free. -/
def fourFree : ℕ := 2 ^ 34 - 1

/-- The inode 1 is `d`; `bits` is the bitmap, and `data` the first block of data. -/
def oneInodeDisk (d : Dinode) (bits : ℕ) (data : Data) : ℕ → Data
  | 32 => writeDinode zero 1 d
  | 33 => setLE zero 0 5 bits
  | 34 => data
  | _ => zero

theorem ninode_pos : 0 < ninode := by decide

def entry0 : Ptr := ⟨0, ninode_pos⟩

/-- It is open at entry 0. -/
def oneInode (d : Dinode) (bits : ℕ) (data : Data) : St where
  sb := smallSb
  disk := oneInodeDisk d bits data
  inode := fun k => if k = entry0 then ⟨d, rootdev, 1, 1, true, true⟩ else default

def oneView (d : Dinode) (i : ℕ) : Dinode := if i = 1 then d else .fresh 0

theorem room_smallSb : Room smallSb 2 := by
  refine ⟨⟨by decide, by decide, by decide⟩, by decide, by decide⟩

section OneInode

variable {d : Dinode} {bits : ℕ} {data : Data}

theorem dinode_oneInode (i : ℕ) (hi : i < 2) :
    dinode smallSb (oneInodeDisk d bits data) i = oneView d i := by
  interval_cases i
  · refine (readDinode_writeDinode_of_ne zero (by decide) _).trans ?_
    simp [readDinode, getLE_zero, Dinode.fresh, oneView]
  · exact readDinode_writeDinode zero (by decide) _

/-- The inode has no block, or the first one. -/
theorem held_oneInode (htype : d.type ≠ 0)
    (hbits : ∀ b < 38, Meta smallSb b → bit (setLE zero 0 5 bits : Data) (b % bpb) = true)
    (hslot : ∀ sl, d.slot (oneInodeDisk d bits data) sl ≠ 0 → sl = .addr 0 ∧
      d.slot (oneInodeDisk d bits data) sl = 34 ∧ bit (setLE zero 0 5 bits : Data) 34 = true) :
    Held smallSb 2 none (oneInode d bits data) (oneView d) := by
  have hother : ∀ {k}, k ≠ entry0 → (oneInode d bits data).inode k = default :=
    fun hne => if_neg hne
  have href : ∀ k, 0 < ((oneInode d bits data).inode k).ref → k = entry0 := by
    intro k hk
    by_contra hne
    rw [hother hne] at hk
    cases hk
  have hone : ∀ p, blockAt 2 (oneInodeDisk d bits data) (oneView d) p ≠ 0 →
      p = (1, .addr 0) ∧ blockAt 2 (oneInodeDisk d bits data) (oneView d) p = 34 ∧
        bit (setLE zero 0 5 bits : Data) 34 = true := by
    rintro ⟨i, sl⟩ hne
    by_cases hi : i = 1
    · subst hi
      have hblock : blockAt 2 (oneInodeDisk d bits data) (oneView d) (1, sl) = _ :=
        if_pos ⟨Nat.one_lt_two, htype⟩
      rw [hblock] at hne ⊢
      obtain ⟨rfl, hused⟩ := hslot sl hne
      exact ⟨rfl, hused⟩
    · exact absurd (if_neg fun hc => hc.2 (congrArg Dinode.type (if_neg hi))) hne
  constructor
  case sb_eq => rfl
  case disk =>
    intro i hi _
    show Behind (oneInodeDisk d bits data) (dinode smallSb (oneInodeDisk d bits data) i) _
    rw [dinode_oneInode i hi]
    exact Behind.refl _ _
  case dev => exact fun k hk => href k hk ▸ rfl
  case inum =>
    intro k hk _
    rw [href k hk]
    exact Nat.one_lt_two
  case copy =>
    intro k hk _
    rw [href k hk]
    exact ⟨rfl, htype⟩
  case uniq => exact fun k l hk hl _ _ => (href k hk).trans (href l hl).symm
  case locked =>
    intro k hk
    have hk0 : k = entry0 := by
      by_contra hne
      rw [hother hne] at hk
      cases hk
    rw [hk0]
    exact ⟨Int.one_pos, rfl⟩
  case apart =>
    refine ⟨⟨fun hp hq => ?_, fun hp => ?_, fun hp => ?_⟩, fun b hb hm => ?_⟩
    · exact (hone _ hp).1.trans (hone _ (hq ▸ hp)).1.symm
    · exact (hone _ hp).2.1 ▸ ⟨by decide, by decide⟩
    · exact (hone _ hp).2.1 ▸ (hone _ hp).2.2
    · show bit (oneInodeDisk d bits data (bblock smallSb b)) (b % bpb) = true
      rw [room_smallSb.bblock_eq hb]
      exact hbits b hb hm

end OneInode

theorem files_oneInode {type : BitVec 16} (htype : type ≠ 0) {bits : ℕ}
    (hbits : ∀ b < 38, Meta smallSb b → bit (setLE zero 0 5 bits : Data) (b % bpb) = true) :
    Files smallSb 2 (oneInode (.fresh type) bits zero) (oneView (.fresh type)) := by
  refine ⟨held_oneInode htype hbits fun sl hne => absurd (Dinode.slot_eq_zero rfl sl) hne, ?_⟩
  intro i _ _ bn hbn
  unfold oneView at hbn
  split_ifs at hbn <;> exact absurd hbn (Nat.not_lt_zero _)

/-- An empty file, and four free blocks. -/
def oneFile : St := oneInode (.fresh tFile) fourFree zero

theorem files_are_byte_arrays_oneFile :
    ∃ s', writei entry0 (kernelSrc [1, 2, 3]) 0 3 oneFile = .ok (3, s') ∧
      readi entry0 1 9 s' = .ok ([2, 3], s') := by
  have hfiles := @files_oneInode tFile (by decide) fourFree (by decide +kernel)
  have hactive : Active oneFile entry0 1 := ⟨by decide, by decide, by decide⟩
  obtain ⟨-, hwrite, -⟩ := files_are_byte_arrays room_smallSb hfiles hactive
  obtain ⟨s', v', hrun, -, -, -, hread, -⟩ := hwrite (kernelSrc [1, 2, 3]) 0 3 (by decide)
    (by decide) (by decide) (by decide +kernel)
  refine ⟨s', hrun, ?_⟩
  rw [hread 1 9 (by decide) (by decide)]
  rfl

end RiscvBm.Fs
