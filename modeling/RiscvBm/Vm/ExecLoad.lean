import RiscvBm.Vm.ArgStack

/-!
# The image that `exec` loads

The two loops of `exec` go over the headers of the file and put one page after the other: a
segment's pages with bytes of the file, a section's pages with zeros. Whatever the address, the
bytes go to the start of its page (`Piece.over`), over what is there already. So what the user sees
in the end is a fold over the pieces (`brought`), and at each address it is the byte of the last
piece that reaches it.

The loops do not see to it that this is the image. The zeros of a section that begins inside of a
page are written over the start of that page.
-/

namespace RiscvBm.Exec

open Vm Wp ByteMemory Function

/-! ## §1  The pages of a file -/

/-- An address, and the bytes that go to the start of its page. -/
structure Piece where
  va : ℕ
  data : List UInt8
deriving DecidableEq, Repr

/-- The headers from `off` on, as the loops read them. -/
def headers (file : List UInt8) (size : ℕ) : ℕ → ℕ → List (List UInt8)
  | 0, _ => []
  | n + 1, off => readi file off size :: headers file size n (off + size)

/-- The segment of a program header, if it is one to load. -/
def segmentOf (hdr : List UInt8) : List ProgHdr :=
  if (progHdr hdr).type = elfProgLoad then [progHdr hdr] else []

/-- The section of a section header, if it has no bytes in the file. -/
def sectionOf (hdr : List UInt8) : List SectHdr :=
  if (sectHdr hdr).type = elfBssType then [sectHdr hdr] else []

/-- The number of rounds over `size` bytes. -/
def pagesOf (size : ℕ) : ℕ := (size + pgsize - 1) / pgsize

def segmentPiece (file : List UInt8) (ph : ProgHdr) (i : ℕ) : Piece :=
  ⟨ph.vaddr + i * pgsize, readi file (ph.off + i * pgsize) (min pgsize (ph.filesz - i * pgsize))⟩

def segmentPieces (file : List UInt8) (ph : ProgHdr) : List Piece :=
  (List.range' 0 (pagesOf ph.filesz)).map (segmentPiece file ph)

def sectionPiece (sh : SectHdr) (i : ℕ) : Piece :=
  ⟨(sh.addr + i * pgsize) % 2 ^ 64, List.replicate (min pgsize (sh.size - i * pgsize)) 0⟩

def sectionPieces (sh : SectHdr) : List Piece :=
  (List.range' 0 (pagesOf sh.size)).map (sectionPiece sh)

def segments (file : List UInt8) : List ProgHdr :=
  (headers file proghdrSize (elfHdr (readi file 0 elfhdrSize)).phnum
    (elfHdr (readi file 0 elfhdrSize)).phoff).flatMap segmentOf

def sections (file : List UInt8) : List SectHdr :=
  (headers file elfshdrSize (elfHdr (readi file 0 elfhdrSize)).shnum
    (elfHdr (readi file 0 elfhdrSize)).shoff).flatMap sectionOf

def pieces (file : List UInt8) : List Piece :=
  (segments file).flatMap (segmentPieces file) ++ (sections file).flatMap sectionPieces

/-- The byte `i` of a segment in memory. -/
def imageByte (file : List UInt8) (ph : ProgHdr) (i : ℕ) : UInt8 :=
  if i < ph.filesz then file.getD (ph.off + i) 0 else 0

/-- The user sees the bytes of each segment where the file has them to be, with zeros up to its size
in memory. -/
def Image (file : List UInt8) (seen : ℕ → Option UInt8) : Prop :=
  ∀ ph ∈ segments file, ∀ i < ph.memsz, seen (ph.vaddr + i) = some (imageByte file ph i)

/-! ## §2  What the pieces bring -/

/-- The bytes go to the start of the page; a page that was not there is one of zeros. -/
def Piece.over (x : Piece) (seen : ℕ → Option UInt8) (a : ℕ) : Option UInt8 :=
  if a / pgsize = x.va / pgsize then some (x.data.getD (a % pgsize) ((seen a).getD 0)) else seen a

def brought (l : List Piece) (seen : ℕ → Option UInt8) : ℕ → Option UInt8 :=
  l.foldl (fun seen x => x.over seen) seen

/-- The byte that a piece has for the address `a`. -/
def Piece.at? (x : Piece) (a : ℕ) : Option UInt8 :=
  if a / pgsize = x.va / pgsize then x.data[a % pgsize]? else none

/-- For each byte of a segment, its page is there already or one of the pieces is on it, and the
last piece that reaches the byte has it; if none does, it is there already. -/
def Delivers (file : List UInt8) (seen : ℕ → Option UInt8) : Prop :=
  ∀ ph ∈ segments file, ∀ i < ph.memsz,
    (seen (ph.vaddr + i) ≠ none ∨ ∃ x ∈ pieces file, (ph.vaddr + i) / pgsize = x.va / pgsize) ∧
    ((pieces file).reverse.findSome? (·.at? (ph.vaddr + i))).getD ((seen (ph.vaddr + i)).getD 0) =
      imageByte file ph i

section Brought

variable {file : List UInt8} {l : List Piece} {seen : ℕ → Option UInt8} {a : ℕ}

theorem brought_concat (l : List Piece) (x : Piece) (seen : ℕ → Option UInt8) :
    brought (l ++ [x]) seen = x.over (brought l seen) := by
  rw [brought, List.foldl_append]
  rfl

theorem brought_ne_none : brought l seen a ≠ none ↔
    seen a ≠ none ∨ ∃ x ∈ l, a / pgsize = x.va / pgsize := by
  induction l using List.reverseRecOn with
  | nil => simp [brought]
  | append_singleton l x ih =>
    rw [brought_concat, Piece.over]
    split
    · rename_i hpage
      exact iff_of_true (Option.some_ne_none _) (Or.inr ⟨x, by simp, hpage⟩)
    · rename_i hpage
      rw [ih]
      simp [or_and_right, exists_or, hpage]

/-- The last piece that reaches an address. -/
theorem brought_getD : (brought l seen a).getD 0 =
    (l.reverse.findSome? (·.at? a)).getD ((seen a).getD 0) := by
  induction l using List.reverseRecOn with
  | nil => rfl
  | append_singleton l x ih =>
    rw [brought_concat, Piece.over, List.reverse_concat, List.findSome?_cons, Piece.at?]
    by_cases hpage : a / pgsize = x.va / pgsize
    · rw [if_pos hpage, if_pos hpage, Option.getD_some, List.getD_eq_getElem?_getD]
      cases x.data[a % pgsize]? with
      | none => exact ih
      | some c => rfl
    · rw [if_neg hpage, if_neg hpage]
      exact ih

theorem image_brought : Image file (brought (pieces file) seen) ↔ Delivers file seen := by
  have hsome : ∀ (o : Option UInt8) c, o = some c ↔ o ≠ none ∧ o.getD 0 = c := by
    intro o c
    cases o <;> simp
  simp only [Image, Delivers, hsome, brought_ne_none, brought_getD]

end Brought

/-! ## §3  The invariant -/

/-- When a piece comes its page is the user's, or it is `free` and the piece is for its start. -/
def Plain (free : ℕ → Prop) (seen : ℕ → Option UInt8) (l : List Piece) : Prop :=
  ∀ before x rest, l = before ++ x :: rest →
    x.va < maxva ∧ (brought before seen x.va ≠ none ∨ x.va % pgsize = 0 ∧ free x.va)

theorem Plain.tail {free : ℕ → Prop} {seen : ℕ → Option UInt8} {x : Piece} {l : List Piece}
    (h : Plain free seen (x :: l)) : Plain free (x.over seen) l :=
  fun before y rest hl => h (x :: before) y rest (congrArg (List.cons x) hl)

/-- The pieces `todo` are to come, and with them the user will see `goal`. -/
structure Loading (goal : ℕ → Option UInt8) (free : ℕ → Prop) (r : ℕ) (todo : List Piece) (pa : ℕ)
    (s : St) : Prop where
  root : s.mm.pagetable = r
  table : ProgramTable s.mem r
  spare : pa ≠ 0 → Clear s.mem r pa
  plain : Plain free (shown s.mem r) todo
  free : ∀ va < maxva, free va → shown s.mem r va = none → isValid (translate s.mem r va) = false
  comes : brought todo (shown s.mem r) = goal

section Steps

variable {alloc : Mem → ℕ} {goal : ℕ → Option UInt8} {free : ℕ → Prop} {todo l : List Piece}
  {x : Piece} {s : St} {m m' : Mem} {pa pa' r p n i : ℕ} {page : ℕ → ℕ} {file : List UInt8}

/-- The memory becomes `m'`, of which the user sees the same. -/
theorem Loading.same (h : Loading goal free r todo pa s) (htable : ProgramTable m' r)
    (hspare : pa' ≠ 0 → Clear m' r pa') (hshown : shown m' r = shown s.mem r)
    (htrans : ∀ va, translate m' r va = translate s.mem r va) :
    Loading goal free r todo pa' { s with mem := m' } := by
  refine ⟨h.root, htable, hspare, ?_, fun va hva hfree hno => ?_, ?_⟩
  · show Plain free (shown m' r) todo
    rw [hshown]
    exact h.plain
  · change shown m' r va = none at hno
    rw [hshown] at hno
    exact (congrArg isValid (htrans va)).trans (h.free va hva hfree hno)
  · show brought todo (shown m' r) = goal
    rw [hshown]
    exact h.comes

theorem Loading.setPage (h : Loading goal free r todo pa s) (hpa : pa ≠ 0) (page : ℕ → ℕ) :
    Loading goal free r todo pa { s with mem := s.mem.setPage pa page } := by
  have hclear := h.spare hpa
  exact h.same (h.table.setPage hclear.data.2 page) (fun _ => hclear.setPage hclear.data.2 page)
    (funext (hclear.shown_setPage page)) fun _ => translate_of_words
      (sameTables_setPage hclear.data.2)

theorem Loading.release (h : Loading goal free r todo pa s) (hpa : pa ≠ 0) :
    Loading goal free r todo 0 { s with mem := s.mem.release pa } :=
  h.same (h.table.release (h.spare hpa)) (fun hzero => absurd rfl hzero) rfl fun _ => rfl

/-- A piece has come. -/
theorem Loading.lands {src : ℕ → ℕ} (h : Loading goal free r (x :: todo) pa s)
    (hlands : Lands r x.va x.data.length src s.mem m')
    (hsrc : ∀ o < x.data.length, pageByte src o = x.data.getD o 0) :
    Loading goal free r todo pa { s with mem := m' } := by
  have hover : shown m' r = x.over (shown s.mem r) := by
    funext a
    rw [hlands.shown, Piece.over]
    split
    · by_cases ho : a % pgsize < x.data.length
      · rw [put, if_pos ho, hsrc _ ho, List.getD_eq_getElem _ _ ho, List.getD_eq_getElem _ _ ho]
      · rw [put, if_neg ho, List.getD_eq_default _ _ (Nat.le_of_not_lt ho)]
    · rfl
  refine ⟨h.root, hlands.table, fun hpa => hlands.clear (h.spare hpa), ?_, ?_, ?_⟩
  · show Plain free (shown m' r) todo
    rw [hover]
    exact h.plain.tail
  · intro va hva hfree hno
    change shown m' r va = none at hno
    rw [hover, Piece.over] at hno
    split at hno
    · cases hno
    · rename_i hpage
      exact (congrArg isValid (hlands.others va hva hpage)).trans (h.free va hva hfree hno)
  · show brought todo (shown m' r) = goal
    rw [hover]
    exact h.comes

/-- Unless the stage ends in `bad`. -/
def Reaches {α : Type} (goal : ℕ → Option UInt8) (free : ℕ → Prop) (r : ℕ) (todo : List Piece)
    (pa : α → ℕ) (c : ExecM (Stage α)) (s : St) : Prop :=
  wp c (fun res s' => ∀ y, res = .ok y → Loading goal free r todo (pa y) s') (fun _ => True) s

section Reaches

variable {α β : Type} {f : α → ℕ} {g : β → ℕ}

theorem reaches_error : Reaches goal free r todo f (pure (.error pa)) s :=
  wp_pure fun _ hres => by cases hres

theorem reaches_ok {y : α} (h : Loading goal free r todo (f y) s) :
    Reaches goal free r todo f (pure (.ok y)) s :=
  wp_pure fun _ hres => by cases hres; exact h

theorem Reaches.bind {c : ExecM (Stage α)} {k : Stage α → ExecM (Stage β)}
    (hc : Reaches goal free r l f c s) (herror : ∀ pa, k (.error pa) = pure (.error pa))
    (hk : ∀ y s', Loading goal free r l (f y) s' → Reaches goal free r todo g (k (.ok y)) s') :
    Reaches goal free r todo g (c >>= k) s := by
  apply wp_bind hc
  rintro (pa | y) s' hs'
  · rw [herror]
    exact reaches_error
  · exact hk y s' (hs' y rfl)

end Reaches

/-- The bounce page with bytes of the file. -/
theorem storeList_page (m : Mem) (p : ℕ) {data : List UInt8} (hlen : data.length ≤ pgsize) :
    ∃ page, physical.storeList (p * pgsize) data (m.zeroPage p) = m.setPage p page ∧
      ∀ o < pgsize, pageByte page o = data.getD o 0 := by
  have hzero : m.zeroPage p = m.setPage p fun _ => 0 := rfl
  obtain ⟨page, hpage⟩ : Within m p (physical.storeList (p * pgsize) data (m.zeroPage p)) := by
    apply Within.storeList ⟨_, hzero⟩
    exact fun i hi => frame_div (hi.trans_le hlen)
  refine ⟨page, hpage, fun o ho => ?_⟩
  rw [← byte_setPage m page ho, ← hpage]
  change physical.read _ _ = _
  rw [physical.read_storeList]
  by_cases hin : o < data.length
  · rw [dif_pos (by omega)]
    simp [hin]
  · rw [dif_neg (by omega), List.getD_eq_default _ _ (Nat.le_of_not_lt hin), hzero]
    exact (byte_setPage m _ ho).trans (pageByte_zero o)

section Memory

variable (hmem : ∀ m, Answer alloc m (alloc m))

include hmem

theorem Loading.wp_bounce (h : Loading goal free r todo pa s) :
    wp (bounce alloc pa) (fun p s' => p ≠ 0 ∧ Loading goal free r todo p s') (fun _ => True) s := by
  unfold bounce
  apply wp_ite
  · intro _
    have hp := hmem s.mem
    generalize alloc s.mem = p at hp
    obtain ⟨htable, hclear⟩ := h.table.take (u := .bounce) hp.2.2
    have hnext := h.same htable (fun _ => hclear) rfl fun _ => rfl
    apply wp_bind_run (onMem_run (getFreePage_some .bounce hp))
    exact wp_pure ⟨hp.2.1, hnext⟩
  · exact fun hpa => wp_pure ⟨hpa, h⟩

/-! ## §4  One page -/

/-- With memory, a page that is not mapped is taken and mapped. -/
theorem lands_free {va : ℕ} (h : ProgramTable m r) (hva : va < maxva) (hal : va % pgsize = 0)
    (hv : isValid (translate m r va) = false) (n : ℕ) (src : ℕ → ℕ) :
    ∃ m', mapProgramPage alloc r va n src m = .ok (some true, m') ∧ Lands r va n src m m' := by
  have hp := hmem m
  generalize alloc m = p at hp
  obtain ⟨b, m₁, hmap, -, hyes, hno⟩ := h.tree.mappages_new programPerm hal hva hp.2.2
  cases b with
  | false =>
    rcases (hno rfl).2 with ⟨m₂, hfull⟩ | hvalid
    · exact absurd (hmem m₂) hfull
    · rw [hv] at hvalid
      cases hvalid
  | true =>
    exact ⟨_, mapPage_filled (not_userPage hv) hp hmap, h.lands_new (hyes rfl) hp.2 hva n src⟩

/-- A piece more is there. -/
theorem Loading.wp_map {src : ℕ → ℕ → ℕ} (h : Loading goal free r (x :: todo) pa s)
    (hlen : x.data.length = n) (hpos : n ≠ 0) (hn : n ≤ pgsize)
    (hsrc : ∀ o < n, pageByte (src 0) o = x.data.getD o 0) :
    wp (onMem (vmMapProgram alloc r x.va n src))
      (fun o s' => o ≠ none ∧ Loading goal free r todo pa s') (fun _ => True) s := by
  subst hlen
  obtain ⟨b, m', hrun, hlands⟩ : ∃ b m', mapProgramPage alloc r x.va x.data.length (src 0) s.mem =
      .ok (some b, m') ∧ Lands r x.va x.data.length (src 0) s.mem m' := by
    obtain ⟨hva, hpage⟩ := h.plain [] x todo rfl
    by_cases hu : UserPage s.mem r x.va
    · exact ⟨_, _, mapPage_user hu, h.table.lands_user hu _ _⟩
    · obtain ⟨hal, hfree⟩ := hpage.resolve_left (not_not.mpr (shown_none hu))
      exact ⟨true, lands_free hmem h.table hva hal (h.free _ hva hfree (shown_none hu)) _ _⟩
  have hone : vmMapProgram alloc r x.va x.data.length src s.mem = .ok (some (false || b), m') := by
    rw [vmMapProgram_one hpos hn, bind_run hrun]
    rfl
  exact wp_of_run (onMem_run hone) ⟨Option.some_ne_none _, h.lands hlands hsrc⟩

theorem Loading.loadPage {ph : ProgHdr}
    (h : Loading goal free r (segmentPiece file ph i :: todo) pa s)
    (hi : i * pgsize < ph.filesz) :
    Reaches goal free r todo id (loadPage alloc file ph (i * pgsize) pa) s := by
  unfold Exec.loadPage
  apply wp_bind (h.wp_bounce hmem)
  rintro p s₁ ⟨hp, h₁⟩
  have hdata : (segmentPiece file ph i).data =
      readi file (ph.off + i * pgsize) (min pgsize (ph.filesz - i * pgsize)) := rfl
  have hpos : min pgsize (ph.filesz - i * pgsize) ≠ 0 := by
    unfold pgsize at *
    omega
  have hle := Nat.min_le_left pgsize (ph.filesz - i * pgsize)
  dsimp only
  generalize min pgsize (ph.filesz - i * pgsize) = n at *
  rw [if_neg hp]
  apply wp_modify_bind
  apply wp_ite
  · exact fun _ => reaches_error
  rw [not_not, ← hdata]
  intro hlen
  obtain ⟨page, hpage, hbytes⟩ := storeList_page s₁.mem p (hlen.trans_le hle)
  rw [hpage]
  apply wp_get
  have hstored := h₁.setPage hp page
  rw [h₁.root]
  apply wp_bind (hstored.wp_map hmem hlen hpos hle fun o ho => by
    rw [word_setPage, hbytes o (ho.trans_le hle)])
  rintro (_ | _ | _) s₂ ⟨hsome, h₂⟩
  · exact absurd rfl hsome
  · exact reaches_ok h₂
  · apply wp_bind_run (onMem_run (m := s₂.mem.release p) rfl)
    exact reaches_ok (h₂.release hp)

theorem Loading.zeroPage {sh : SectHdr} (h : Loading goal free r (sectionPiece sh i :: todo) pa s)
    (hi : i * pgsize < sh.size) :
    Reaches goal free r todo id (zeroPage alloc sh (i * pgsize) pa) s := by
  have hpos : min pgsize (sh.size - i * pgsize) ≠ 0 := by
    unfold pgsize at *
    omega
  unfold Exec.zeroPage
  apply wp_get
  rw [h.root]
  apply wp_bind (h.wp_map hmem List.length_replicate hpos (Nat.min_le_left ..) _)
  · exact fun _ s₁ h₁ => reaches_ok h₁.2
  · intro o ho
    rw [pageByte_zero, sectionPiece]
    exact (List.getD_replicate _ ho).symm

end Memory

/-! ## §5  The loops -/

theorem counter_eq (h : i * pgsize < 2 ^ 31) : counter i = i * pgsize := by
  have hmod : i * pgsize % 2 ^ 32 = i * pgsize := Nat.mod_eq_of_lt (by omega)
  rw [counter, hmod, if_pos h]

/-- Up to `2 ^ 31` bytes the counter is the offset of the page. -/
theorem counter_lt {size : ℕ} (hsize : size ≤ 2 ^ 31) (hi : i ≤ pagesOf size) :
    counter i < size ↔ i < pagesOf size := by
  have hpages : i < pagesOf size ↔ i * pgsize < size := by
    unfold pagesOf pgsize
    omega
  rw [hpages]
  by_cases hin : i * pgsize < 2 ^ 31
  · rw [counter_eq hin]
  · refine iff_of_false ?_ (by omega)
    have hle : i * pgsize < 2 ^ 32 := by
      unfold pagesOf pgsize at *
      omega
    rw [counter, Nat.mod_eq_of_lt hle, if_neg hin]
    omega

theorem Loading.forPages {size fuel : ℕ} (P : ℕ → Piece) (body : ℕ → ℕ → ExecM (Stage ℕ))
    (hsize : size ≤ 2 ^ 31)
    (hbody : ∀ {i todo pa s}, i * pgsize < size → Loading goal free r (P i :: todo) pa s →
      Reaches goal free r todo id (body (i * pgsize) pa) s)
    (h : Loading goal free r ((List.range' i n).map P ++ todo) pa s) (hn : i + n = pagesOf size)
    (hfuel : n < fuel) : Reaches goal free r todo id (forPages size body fuel i pa) s := by
  induction n generalizing i fuel pa s with
  | zero =>
    obtain ⟨fuel, rfl⟩ : ∃ k, fuel = k + 1 := ⟨fuel - 1, by omega⟩
    rw [Exec.forPages, if_neg fun hlt => absurd ((counter_lt hsize (by omega)).mp hlt) (by omega)]
    exact reaches_ok h
  | succ n ih =>
    obtain ⟨fuel, rfl⟩ : ∃ k, fuel = k + 1 := ⟨fuel - 1, by omega⟩
    have hlt := (counter_lt hsize (i := i) (by omega)).mpr (by omega)
    have hoff : i * pgsize < size := by
      unfold pagesOf pgsize at *
      omega
    rw [Exec.forPages, if_pos hlt, counter_eq (by omega)]
    apply Reaches.bind (hbody hoff h)
    · exact fun _ => rfl
    · exact fun pa₁ s₁ h₁ => ih h₁ (by omega) (by omega)

theorem Loading.forHeaders {size off : ℕ} {y : ℕ × ℕ} (P : List UInt8 → List Piece)
    (body : List UInt8 → ℕ × ℕ → ExecM (Stage (ℕ × ℕ)))
    (hbody : ∀ {hdr todo y s}, hdr ∈ headers file size n off →
      Loading goal free r (P hdr ++ todo) y.1 s → Reaches goal free r todo Prod.fst (body hdr y) s)
    (h : Loading goal free r ((headers file size n off).flatMap P ++ todo) y.1 s) :
    Reaches goal free r todo Prod.fst (forHeaders file size body n off y) s := by
  induction n generalizing off y s with
  | zero => exact reaches_ok h
  | succ n ih =>
    rw [headers, List.flatMap_cons, List.append_assoc] at h
    apply wp_ite
    · exact fun _ => reaches_error
    intro _
    apply Reaches.bind (hbody List.mem_cons_self h)
    · exact fun _ => rfl
    · exact fun y₁ s₁ h₁ => ih (fun hmem => hbody (List.mem_cons_of_mem _ hmem)) h₁

/-- No segment and no section for which `j` overflows. -/
def Small (file : List UInt8) : Prop :=
  (∀ ph ∈ segments file, ph.filesz ≤ 2 ^ 31) ∧ ∀ sh ∈ sections file, sh.size ≤ 2 ^ 31

theorem pagesOf_lt {size : ℕ} (hsize : size ≤ 2 ^ 31) : pagesOf size < loopBound := by
  unfold pagesOf loopBound pgsize
  omega

section Memory

variable (hmem : ∀ m, Answer alloc m (alloc m))

include hmem

theorem Loading.loadSegment {hdr : List UInt8} {y : ℕ × ℕ}
    (hsmall : ∀ ph ∈ segmentOf hdr, ph.filesz ≤ 2 ^ 31)
    (h : Loading goal free r ((segmentOf hdr).flatMap (segmentPieces file) ++ todo) y.1 s) :
    Reaches goal free r todo Prod.fst (loadSegment alloc file hdr y) s := by
  unfold Exec.loadSegment
  apply wp_bind (h.wp_bounce hmem)
  rintro p s₁ ⟨-, h₁⟩
  apply wp_ite
  · intro htype
    rw [segmentOf, if_neg htype] at h₁
    exact reaches_ok h₁
  intro htype
  rw [segmentOf, if_pos (not_not.mp htype)] at h₁ hsmall
  rw [List.flatMap_singleton] at h₁
  have hsize := hsmall _ List.mem_cons_self
  apply wp_ite
  · exact fun _ => reaches_error
  intro _
  apply wp_ite
  · exact fun _ => reaches_error
  intro _
  apply wp_ite
  · exact fun _ => reaches_error
  intro _
  apply Reaches.bind (h₁.forPages _ _ hsize (fun hi h => h.loadPage hmem hi) (Nat.zero_add _)
    (pagesOf_lt hsize))
  · exact fun _ => rfl
  · exact fun pa₂ s₂ h₂ => reaches_ok h₂

theorem Loading.loadSection {hdr : List UInt8} {y : ℕ × ℕ}
    (hsmall : ∀ sh ∈ sectionOf hdr, sh.size ≤ 2 ^ 31)
    (h : Loading goal free r ((sectionOf hdr).flatMap sectionPieces ++ todo) y.1 s) :
    Reaches goal free r todo Prod.fst (loadSection alloc hdr y) s := by
  apply wp_ite
  · intro htype
    rw [sectionOf, if_neg htype] at h
    exact reaches_ok h
  intro htype
  rw [sectionOf, if_pos (not_not.mp htype)] at h hsmall
  rw [List.flatMap_singleton] at h
  have hsize := hsmall _ List.mem_cons_self
  apply Reaches.bind (h.forPages _ _ hsize (fun hi h => h.zeroPage hmem hi) (Nat.zero_add _)
    (pagesOf_lt hsize))
  · exact fun _ => rfl
  · exact fun pa₁ s₁ h₁ => reaches_ok h₁

theorem Loading.load (hsmall : Small file) (h : Loading goal free r (pieces file) 0 s) :
    wp (load alloc file) (fun res s' => res = .ok () → shown s'.mem s'.mm.pagetable = goal)
      (fun _ => True) s := by
  apply wp_ite
  · exact fun _ => wp_pure fun hres => by cases hres
  intro _
  apply wp_bind (h.wp_bounce hmem)
  rintro p s₁ ⟨-, h₁⟩
  rw [pieces, segments, sections, List.flatMap_assoc, List.flatMap_assoc] at h₁
  apply wp_bind (Loading.forHeaders (y := (p, 0)) _ (Exec.loadSegment alloc file)
    (fun hhdr h => h.loadSegment hmem fun ph hph => hsmall.1 ph (List.mem_flatMap_of_mem hhdr hph))
    h₁)
  rintro (pa₂ | y₂) s₂ h₂
  · exact wp_pure fun hres => by cases hres
  have h₃ := h₂ y₂ rfl
  rw [← List.append_nil (List.flatMap _ _)] at h₃
  apply wp_bind (Loading.forHeaders _ (Exec.loadSection alloc)
    (fun hhdr h => h.loadSection hmem fun sh hsh => hsmall.2 sh (List.mem_flatMap_of_mem hhdr hsh))
    h₃)
  rintro (pa₄ | y₄) s₄ h₄
  · exact wp_pure fun hres => by cases hres
  · have h₅ := h₄ y₄ rfl
    refine wp_modify_bind (wp_pure fun _ => ?_)
    show shown s₄.mem s₄.mm.pagetable = goal
    rw [h₅.root]
    exact h₅.comes

end Memory

end Steps

/-! ## §6  The image -/

section Image

variable {alloc : Mem → ℕ} {file : List UInt8} {s s' : St}

/-- `exec` returns a non-negative value only when the loops got to their end, with the memory that
they left. -/
theorem exec_loaded (w : World) (path : Option (List UInt8)) (argv : ℕ) (t : Task) :
    wp (exec w path argv) (fun r t' => 0 ≤ r → ∃ file s, w.second = some file ∧
      load w.alloc file s = .ok (.ok (), t'.st)) (fun _ => True) t := by
  have hneg : ∀ {P : Prop}, (0 : ℤ) ≤ -1 → P := fun h => absurd h (by decide)
  have hfails : ∀ {t : Task} {P : Task → Prop}, wp (do logEndOp; pure (-1))
      (fun r t' => (0 : ℤ) ≤ r → P t') (fun _ => True) t :=
    wp_bind wp_trivial fun _ _ _ => wp_pure hneg
  have hbad : ∀ {pa t} {P : Task → Prop},
      wp (bad pa) (fun r t' => 0 ≤ r → P t') (fun _ => True) t := by
    intro pa t P
    unfold bad
    split
    · exact wp_bind wp_trivial fun _ _ _ => wp_bind wp_trivial fun _ _ _ => hfails
    · exact wp_bind wp_trivial fun _ _ _ => hfails
  unfold exec
  split
  · exact wp_pure hneg
  refine wp_bind wp_trivial fun _ _ _ => ?_
  split
  · exact hfails
  iterate 4 refine wp_bind wp_trivial fun _ _ _ => ?_
  apply wp_bind wp_trivial
  rintro (pa | argc) _ -
  · exact hbad
  refine wp_bind wp_trivial fun _ _ _ => ?_
  split
  · exact hfails
  rename_i file hfile
  iterate 3 refine wp_bind wp_trivial fun _ _ _ => ?_
  refine wp_bind wp_trivial fun _ t₁ _ => ?_
  apply wp_zoom_bind (wp_error wp_run fun _ _ => trivial)
  rintro (pa | _) s hload
  · exact hbad
  apply wp_bind (Q := fun _ t' => t'.st = s)
  · apply wp_get
    apply wp_ite
    · exact fun _ => wp_modify_bind (wp_modify rfl)
    · exact fun _ => wp_throw trivial
  rintro _ t' rfl
  exact wp_modify_bind (wp_pure fun _ => ⟨file, t₁.st, hfile, hload⟩)

/-- **When the image is loaded.** With memory, and with pieces for pages that are the user's or for
the start of pages that are not mapped, the loops leave the image just if for each byte of it the
last piece that reaches the byte has it. -/
theorem loadsImage_iff (h : ProgramTable s.mem s.mm.pagetable)
    (hmem : ∀ m, Answer alloc m (alloc m)) (hsmall : Small file)
    (hplain : Plain (fun va => isValid (translate s.mem s.mm.pagetable va) = false)
      (shown s.mem s.mm.pagetable) (pieces file))
    (hload : load alloc file s = .ok (.ok (), s')) :
    Image file (shown s'.mem s'.mm.pagetable) ↔ Delivers file (shown s.mem s.mm.pagetable) := by
  have hstart : Loading (brought (pieces file) (shown s.mem s.mm.pagetable)) _ s.mm.pagetable
      (pieces file) 0 s :=
    ⟨rfl, h, fun hzero => absurd rfl hzero, hplain, fun _ _ hfree _ => hfree, rfl⟩
  rw [post_of_ok (hstart.load hmem hsmall) hload rfl, image_brought]

end Image

def le (n w : ℕ) : List UInt8 := (List.range n).map (digit w)

/-- A file of 184 bytes with one segment, which is all of it, and one section. -/
def program (vaddr memsz addr size : ℕ) : List UInt8 :=
  le 24 1 ++ le 8 vaddr ++ le 8 64 ++ le 8 120 ++ le 8 0 ++ le 4 1 ++ le 4 1 ++
    (le 8 1 ++ le 8 0 ++ le 8 vaddr ++ le 8 0 ++ le 8 184 ++ le 8 memsz ++ le 8 0) ++
    (le 4 0 ++ le 4 8 ++ le 8 0 ++ le 8 addr ++ le 8 0 ++ le 8 size ++ le 24 0)

/-- With a section on the page behind the segment. -/
def behind : List UInt8 := program userCodeVmStart 4104 (userCodeVmStart + pgsize) 8

/-- A process with nothing mapped. -/
def unmapped : St := { (caller fun _ => 0).st with mem := blank }

theorem pieces_behind : pieces behind =
    [⟨userCodeVmStart, behind⟩, ⟨userCodeVmStart + pgsize, List.replicate 8 0⟩] := by
  decide +kernel

theorem plain_behind :
    Plain (fun va => isValid (translate unmapped.mem unmapped.mm.pagetable va) = false)
      (shown unmapped.mem unmapped.mm.pagetable) (pieces behind) := by
  have hfree : ∀ va, isValid (translate unmapped.mem unmapped.mm.pagetable va) = false :=
    fun va => congrArg isValid (shown_blank va).2
  rw [pieces_behind]
  rintro (_ | ⟨y, _ | ⟨z, before⟩⟩) x rest hl
  · obtain ⟨rfl, -⟩ := List.cons.inj hl
    exact ⟨by decide, Or.inr ⟨by decide, hfree _⟩⟩
  · obtain ⟨rfl, -⟩ := List.cons.inj (List.cons.inj hl).2
    exact ⟨by decide, Or.inr ⟨by decide, hfree _⟩⟩
  · simp at hl

theorem delivers_behind : Delivers behind fun _ => none := by
  have hseg : segments behind = [⟨1, 0, userCodeVmStart, 184, 4104⟩] := by decide +kernel
  have hlen : behind.length = 184 := by decide +kernel
  rw [← image_brought, pieces_behind]
  intro ph hph i hi
  rw [hseg] at hph
  obtain rfl := List.mem_singleton.mp hph
  change i < 4104 at hi
  show Piece.over _ (Piece.over _ _) (userCodeVmStart + i) = _
  simp only [Piece.over, imageByte, Nat.zero_add]
  rcases Nat.lt_or_ge i pgsize with hfirst | hsecond
  · obtain ⟨hdiv, hmod⟩ := @mod_of_aligned userCodeVmStart _ (by decide) hfirst
    rw [if_neg (by rw [hdiv]; decide), if_pos hdiv, hmod]
    split
    · rfl
    · rename_i hend
      rw [List.getD_eq_default _ _ (hlen.trans_le (Nat.le_of_not_lt hend))]
      rfl
  · obtain ⟨o, rfl⟩ := Nat.exists_eq_add_of_le hsecond
    have ho : o < 8 := by
      unfold pgsize at hi
      omega
    obtain ⟨hdiv, hmod⟩ := @mod_of_aligned (userCodeVmStart + pgsize) o (by decide)
      (Nat.lt_trans ho (by decide))
    rw [← Nat.add_assoc, if_pos hdiv, hmod, List.getD_replicate _ ho, if_neg]
    unfold pgsize
    omega

theorem loadsImage_behind : ∃ s', load above behind unmapped = .ok (.ok (), s') ∧
    Image behind (shown s'.mem s'.mm.pagetable) := by
  have hrun : (load above behind unmapped).toOption.any (fun x => x.1.isOk) = true := by
    decide +kernel
  obtain ⟨⟨_ | ⟨⟩, s'⟩, hload, hok⟩ := ok_of_check hrun
  · cases hok
  have hsmall : Small behind := by
    unfold Small
    decide +kernel
  have hseen : shown unmapped.mem unmapped.mm.pagetable = fun _ => none :=
    funext fun a => (shown_blank a).1
  have hiff := @loadsImage_iff above behind unmapped s' programTable_blank
    (fun m => answer_above m) hsmall plain_behind hload
  rw [hseen] at hiff
  exact ⟨s', hload, hiff.mpr delivers_behind⟩

/-- With a section that begins inside of the segment's page. -/
def inside : List UInt8 :=
  program (userCodeVmStart + pgsize) 192 (userCodeVmStart + pgsize + 184) 8

/-- The section's zeros are written over the start of the segment. -/
theorem exec_image_lost : ∃ s', exec ⟨fromRam, some [], some inside⟩ (some [115, 104])
      userCodeVmStart (caller fun _ => 0) = .ok (0, s') ∧
    ¬ Image inside (shown s'.st.mem s'.st.mm.pagetable) := by
  have hrun : (exec ⟨fromRam, some [], some inside⟩ (some [115, 104]) userCodeVmStart
      (caller fun _ => 0)).toOption.any (fun x => x.1 == 0 &&
        shown x.2.st.mem x.2.st.mm.pagetable (userCodeVmStart + pgsize) == some 0) = true := by
    decide +kernel
  have hseg : segments inside = [⟨1, 0, userCodeVmStart + pgsize, 184, 192⟩] := by decide +kernel
  have hfirst : imageByte inside ⟨1, 0, userCodeVmStart + pgsize, 184, 192⟩ 0 = 1 := by
    decide +kernel
  obtain ⟨⟨r, s'⟩, hexec, hzero⟩ := ok_of_check hrun
  simp only [Bool.and_eq_true, beq_iff_eq] at hzero
  refine ⟨s', by rw [hexec, hzero.1], fun himage => ?_⟩
  have hbyte := himage _ (hseg ▸ List.mem_cons_self) 0 (by decide)
  rw [hfirst, Nat.add_zero, hzero.2] at hbyte
  cases hbyte

end RiscvBm.Exec
