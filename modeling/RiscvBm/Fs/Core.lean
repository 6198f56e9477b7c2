import RiscvBm.Fs.View

/-!
# The lower half, seen from above

`Core ρ T L s D` is what the calls on paths know about a state: the references `T` and the locks
`L` are counted, the entry `k` of `itable` is for the inode `ρ k`, and the inodes show `D`. Each
function of the lower half that a path name leads to has one specification in these terms: when
it returns, and that it leaves the disk alone.
-/

namespace RiscvBm.Fs

open Bio (bsize Data)
open Bytes Slots Wp Function
open scoped Finset

structure Core (sb : Superblock) (n : ℕ) (ρ : Ptr → ℕ) (T : Multiset Ref) (L : Finset Ptr) (s : St)
    (D : ℕ → Ino) : Prop where
  counted : Counted T L s
  inums_eq : inums s = ρ
  bound : ∀ k, HasRef T k → ρ k < n
  view : ∃ v, Cached sb n none s v ∧ shows n s.disk v = D

variable {sb : Superblock} {n : ℕ} {ρ : Ptr → ℕ} {T : Multiset Ref} {L : Finset Ptr} {s s' : St}
  {D : ℕ → Ino} {k : Ptr} {i : ℕ}

/-! ## §1  What is known about an inode -/

section

variable (h : Core sb n ρ T L s D)

include h

theorem Core.inum_eq (k : Ptr) : (s.inode k).inum = ρ k :=
  congrFun h.inums_eq k

theorem Core.dev_eq (hk : HasRef T k) : (s.inode k).dev = rootdev := by
  obtain ⟨v, hc, -⟩ := h.view
  exact hc.dev k (h.counted.ref_pos hk)

theorem Core.inj {j k : Ptr} (hj : HasRef T j) (hk : HasRef T k)
    (heq : ρ j = ρ k) : j = k := by
  rw [← h.inum_eq, ← h.inum_eq] at heq
  refine h.counted.uniq j k (h.counted.ref_pos hj) (h.counted.ref_pos hk) ?_ heq
  rw [h.dev_eq hj, h.dev_eq hk]

theorem Core.locked (hk : k ∈ L) :
    ∃ v, Cached sb n none s v ∧ shows n s.disk v = D ∧ Active s k (ρ k) ∧
      (v (ρ k)).ino s.disk = D (ρ k) := by
  obtain ⟨v, hc, hD⟩ := h.view
  have hactive := hc.active_of_locked ((h.counted.locked k).mpr hk)
  rw [h.inum_eq] at hactive
  refine ⟨v, hc, hD, hactive, ?_⟩
  rw [← hD, shows_eq (hc.inum_lt hactive) (hc.type_ne hactive)]

theorem Core.type_eq (hk : k ∈ L) :
    (s.inode k).type = (D (ρ k)).type := by
  obtain ⟨v, hc, -, hactive, hino⟩ := h.locked hk
  rw [hc.copy_eq hactive, ← hino]
  rfl

theorem Core.dinode_type (hi : i < n) :
    (dinode sb s.disk i).type = (D i).type := by
  obtain ⟨v, hc, rfl⟩ := h.view
  rw [(hc.disk i hi (by simp)).type]
  by_cases ht : (v i).type = 0
  · rw [shows, if_neg fun hx => hx.2 ht]
    exact ht
  · rw [shows_eq hi ht]
    rfl

/-- An entry of `itable` that is valid agrees with the inodes shown. -/
theorem Core.entry_nlink (hk : HasRef T k)
    (hv : (s.inode k).valid = true) : (s.inode k).nlink = (D (ρ k)).nlink := by
  obtain ⟨v, hc, rfl⟩ := h.view
  have hactive : Active s k (ρ k) := ⟨h.counted.ref_pos hk, hv, h.inum_eq k⟩
  rw [shows_eq (h.bound k hk) (hc.type_ne hactive), hc.copy_eq hactive]
  rfl

theorem Core.ref_eq_zero (hk : ¬ HasRef T k) : (s.inode k).ref = 0 := by
  rw [h.counted.ref k, Nat.cast_eq_zero, Multiset.countP_eq_zero]
  rintro ⟨l, b⟩ hmem rfl
  exact hk ⟨b, hmem⟩

end

/-! ## §2  References and locks -/

/-- The disk is the same, and every entry of `itable` is for the inode it was for. -/
theorem Core.touched {T' : Multiset Ref} {L' : Finset Ptr} {v : ℕ → Dinode}
    (h : Core sb n ρ T L s D) (hc : Cached sb n none s v) (hD : shows n s.disk v = D)
    (ht : Touched sb n k (inums s k) s s' v) (hcounted : Counted T' L' s')
    (hT : ∀ l, HasRef T' l → HasRef T l) : Core sb n ρ T' L' s' D ∧ s'.disk = s.disk := by
  refine ⟨⟨hcounted, ht.inums_eq.trans h.inums_eq, fun l hl => h.bound l (hT l hl), v,
    ⟨ht.held, hc.shape⟩, ?_⟩, ht.disk⟩
  rw [ht.disk, hD]

theorem Core.got (h : Core sb n ρ T L s D) (hi : i < n) {ip : Inode}
    (hgot : Got s rootdev i k ip) : (HasRef T k → ρ k = i) ∧
      Core sb n (update ρ k i) ((k, false) ::ₘ T) L (setInode s k ip) D := by
  obtain ⟨v, hc, hD⟩ := h.view
  obtain ⟨ht, hsame⟩ := hc.touched_got hgot
  have hinums := inums_of_others ht.others ht.inum
  rw [h.inums_eq] at hinums hsame
  refine ⟨fun hk => hsame (h.counted.ref_pos hk), h.counted.got hgot false, hinums, ?_, v,
    ⟨ht.held, hc.shape⟩, hD⟩
  intro l hl
  by_cases hlk : l = k
  · rw [hlk, update_self]
    exact hi
  · rw [update_of_ne hlk]
    exact h.bound l (hl.of_cons.resolve_left hlk)

theorem Core.iget (h : Core sb n ρ T L s D) (hi : i < n) (htable : ∃ k, ¬ HasRef T k) :
    wp (iget rootdev i) (fun k s' => ((HasRef T k → ρ k = i) ∧
      Core sb n (update ρ k i) ((k, false) ::ₘ T) L s' D) ∧ s'.disk = s.disk) noError s := by
  refine wp_mono (iget_spec h.counted.uniq rootdev i) ?_ ?_
  · rintro k _ ⟨ip, hgot, rfl⟩
    exact ⟨h.got hi hgot, rfl⟩
  · rintro e ⟨-, hfull⟩
    obtain ⟨k, hk⟩ := htable
    exact hfull k (h.ref_eq_zero hk)

theorem Core.idup (h : Core sb n ρ T L s D) (hk : HasRef T k) :
    wp (idup k) (fun r s' => r = k ∧ Core sb n ρ ((k, false) ::ₘ T) L s' D ∧ s'.disk = s.disk)
      noError s := by
  obtain ⟨v, hc, hD⟩ := h.view
  have hpos := h.counted.ref_pos hk
  have hruns : wp (Fs.idup k) _ noError s := idup_held hc.toHeld hpos
  refine wp_mono (wp_and (h.counted.idup hpos false) hruns) ?_ fun _ he => he.2
  rintro r s' ⟨⟨hr, hcounted⟩, ht⟩
  refine ⟨hr, h.touched hc hD ht hcounted fun l hl => ?_⟩
  rcases hl.of_cons with rfl | hl
  · exact hk
  · exact hl

/-- The inode of an entry that is not valid is read from the disk, where it is in use. -/
theorem Core.ilock (hr : Room sb n) (h : Core sb n ρ T L s D) (hk : HasRef T k)
    (hkL : k ∉ L) (htype : (D (ρ k)).type ≠ 0) :
    wp (ilock k) (fun _ s' => Core sb n ρ T (insert k L) s' D ∧ s'.disk = s.disk) noError s := by
  obtain ⟨v, hc, hD⟩ := h.view
  have hpos := h.counted.ref_pos hk
  have hi : 0 < (s.inode k).ref → inums s k < n := by
    rw [h.inums_eq]
    exact fun _ => h.bound k hk
  have hused : (dinode sb s.disk (inums s k)).type ≠ 0 := by
    rw [h.inums_eq, h.dinode_type (h.bound k hk)]
    exact htype
  have hheld := ilock_held hr hc.toHeld hi (E := noError) (fun hlt => by omega)
    (fun hl => hkL ((h.counted.locked k).mp hl)) hused
  refine wp_mono (wp_and (h.counted.ilock k) hheld) ?_ fun _ he => he.2
  rintro _ s' ⟨⟨-, hcounted⟩, -, v', ht, hv'⟩
  -- the inode on the disk shows the same
  have hsame : ∀ j < n, (v' j).ino s.disk = (v j).ino s.disk ∧
      ((v' j).type = tDir → (v' j).Shape) := by
    intro j hj
    rcases hv' with rfl | rfl
    · exact ⟨rfl, hc.shape j hj⟩
    · by_cases hji : j = inums s k
      · have hbehind := hc.disk j hj (by simp)
        rw [← hji, update_self, hbehind.type]
        refine ⟨(hbehind.ino_eq (hc.shape j hj)).symm, fun hdir => ?_⟩
        obtain ⟨hmod, hle⟩ := hc.shape j hj hdir
        rw [← hbehind.size] at hmod hle
        exact ⟨hmod, hle⟩
      · rw [update_of_ne hji]
        exact ⟨rfl, hc.shape j hj⟩
  refine ⟨⟨hcounted, ht.inums_eq.trans h.inums_eq, h.bound, v',
    ⟨ht.held, fun j hj => (hsame j hj).2⟩, ?_⟩, ht.disk⟩
  rw [ht.disk, shows_congr fun j hj => (hsame j hj).1, hD]

theorem Core.iunlock (h : Core sb n ρ T L s D) (hk : k ∈ L) :
    wp (iunlock k) (fun _ s' => Core sb n ρ T (L.erase k) s' D ∧ s'.disk = s.disk) noError s := by
  obtain ⟨v, hc, hD⟩ := h.view
  have hheld := iunlock_held (E := noError) hc.toHeld fun hno => by
    rw [(h.counted.locked k).mpr hk] at hno
    cases hno
  refine wp_mono (wp_and (h.counted.iunlock k) hheld) ?_ fun _ he => he.2
  rintro _ s' ⟨hcounted, -, ht⟩
  exact h.touched hc hD ht hcounted fun _ hl => hl

/-- A reference is dropped that is not the last one to an inode without links. -/
theorem Core.iput (hr : Room sb n) {b : Bool} (h : Core sb n ρ ((k, b) ::ₘ T) L s D)
    (hlock : k ∉ L ∨ HasRef T k) (hlive : (D (ρ k)).nlink ≠ 0 ∨ HasRef T k) :
    wp (iput k) (fun _ s' => Core sb n ρ T L s' D ∧ s'.disk = s.disk) noError s := by
  obtain ⟨v, hc, hD⟩ := h.view
  have hpos := h.counted.ref_pos (HasRef.head k b T)
  have hkept : ¬ ((s.inode k).ref = 1 ∧ (s.inode k).valid = true ∧ (s.inode k).nlink = 0) := by
    rintro ⟨hone, hvalid, hnlink⟩
    rw [h.entry_nlink (HasRef.head k b T) hvalid] at hnlink
    have hmore := h.counted.one_lt (hlive.resolve_left (not_not.mpr hnlink))
    omega
  have hheld := iput_held (E := noError) hr hc.toHeld hpos (h.counted.one_lt_of_locked hlock)
    fun hlast => absurd hlast hkept
  refine wp_mono (wp_and h.counted.iput hheld) ?_ fun _ he => he.2
  rintro _ s' ⟨hcounted, ht | ⟨hone, hk, hnlink, -⟩⟩
  · exact h.touched hc hD ht hcounted fun _ hl => hl.cons
  · rw [← hc.copy_eq hk] at hnlink
    exact absurd ⟨hone, hk.valid, hnlink⟩ hkept

theorem Core.iunlockput (hr : Room sb n) {b : Bool} (h : Core sb n ρ ((k, b) ::ₘ T) L s D)
    (hk : k ∈ L) (hlive : (D (ρ k)).nlink ≠ 0 ∨ HasRef T k) :
    wp (iunlockput k) (fun _ s' => Core sb n ρ T (L.erase k) s' D ∧ s'.disk = s.disk)
      noError s := by
  refine wp_bind (h.iunlock hk) ?_
  rintro _ s₁ ⟨h₁, hdisk₁⟩
  refine wp_post (h₁.iput hr (Or.inl (Finset.notMem_erase k L)) hlive) ?_
  rintro _ s₂ ⟨h₂, hdisk₂⟩
  exact ⟨h₂, hdisk₂.trans hdisk₁⟩

end RiscvBm.Fs
