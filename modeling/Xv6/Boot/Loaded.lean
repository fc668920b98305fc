import Xv6.Boot.Relocate
import Xv6.Schemes.Moves

/-! @src relocate.c elf.h | name:What the loader writes | layer:proof

    The pages that the first pass asks for hold every segment up to `p_memsz`, whatever the alignments
    are. The second pass copies `p_filesz` bytes without a look at `p_memsz`, so it stays in these
    pages iff no file part ends after them. Then the file is still as it was loaded when its headers
    are read for the second time. -/

namespace Xv6.Boot

open Xv6.Schemes.Bytes

/-! ### The file -/

def fileByte (file : List UInt8) (o : ℕ) : UInt8 := file.getD o 0

/-- The program headers. -/
def headers (file : List UInt8) : List Elf32_Phdr :=
  let Ehdr := Elf32_Ehdr.read (fileByte file)
  (List.range Ehdr.e_phnum.toNat).map
    (Elf32_Phdr.read fun o => fileByte file (Ehdr.e_phoff.toNat + o))

/-- The segments that are to be loaded. -/
def loads (file : List UInt8) : List Elf32_Phdr :=
  (headers file).filter fun ph => ph.p_type = PT_LOAD

/-- Where a segment goes, and how many bytes it may take. -/
def Elf32_Phdr.start (ph : Elf32_Phdr) : Addr := ph.p_paddr.setWidth 64

def Elf32_Phdr.size (ph : Elf32_Phdr) : ℕ := max ph.p_filesz.toNat ph.p_memsz.toNat

/-- The headers, the program headers and the segments are in the file, there is a segment to load, and
    no two of them go to the same place. -/
structure Elf (file : List UInt8) : Prop where
  header : 52 ≤ file.length
  table : (Elf32_Ehdr.read (fileByte file)).e_phoff.toNat +
    32 * (Elf32_Ehdr.read (fileByte file)).e_phnum.toNat ≤ file.length
  nonempty : loads file ≠ []
  segments : ∀ ph ∈ loads file, ph.p_offset.toNat + ph.p_filesz.toNat ≤ file.length
  apart : (loads file).Pairwise fun ph ph' => Apart ph.start ph.size ph'.start ph'.size

/-- The bytes of a segment: those of the file, and zeroes up to `p_memsz`. -/
def segment (file : List UInt8) (ph : Elf32_Phdr) : List UInt8 :=
  (file.drop ph.p_offset.toNat).take ph.p_filesz.toNat ++
    List.replicate (ph.p_memsz.toNat - ph.p_filesz.toNat) 0

/-! ### The first pass -/

/-- Rounding up with a mask, which need not be one less than a power of two. -/
theorem le_rounded {a m : Addr} (h : a.toNat + m.toNat < 2 ^ 63) :
    a.toNat ≤ ((a + m) &&& ~~~ m).toNat := by
  have ht : (a + m).toNat = a.toNat + m.toNat := by
    rw [BitVec.toNat_add]
    exact Nat.mod_eq_of_lt (by omega)
  generalize a + m = t at *
  have hand : (t &&& m) &&& (t &&& ~~~ m) = 0 := by
    ext i hi
    simp only [BitVec.getElem_and, BitVec.getElem_not]
    cases m[i] <;> simp
  have hor : (t &&& m) ||| (t &&& ~~~ m) = t := by
    ext i hi
    simp [← Bool.and_or_distrib_left]
  have hsum : (t &&& m) + (t &&& ~~~ m) = t := by
    rw [BitVec.add_eq_or_of_and_eq_zero _ _ hand, hor]
  have hle : (t &&& m).toNat ≤ m.toNat := by
    rw [BitVec.toNat_and]
    exact Nat.and_le_right
  have hle' : (t &&& ~~~ m).toNat ≤ t.toNat := by
    rw [BitVec.toNat_and]
    exact Nat.and_le_left
  have hnat := congrArg BitVec.toNat hsum
  rw [BitVec.toNat_add] at hnat
  omega

/-- The extent holds what a segment takes in memory. -/
structure Extent.Covers (e : Extent) (ph : Elf32_Phdr) : Prop where
  init : e.init = true
  start : e.alloc_start.toNat ≤ ph.p_paddr.toNat
  stop : ph.p_paddr.toNat + ph.p_memsz.toNat ≤ e.alloc_end.toNat

/-- What the first loop does with a segment that is to be loaded. -/
theorem Extent.add_load (e : Extent) {ph : Elf32_Phdr} (h : ph.p_type = PT_LOAD) :
    ∃ stop : Addr, ph.p_paddr.toNat + ph.p_memsz.toNat ≤ stop.toNat ∧
      e.add ph = if e.init = false then ⟨ph.start, stop, true⟩ else
        { e with
          alloc_start := if ph.start < e.alloc_start then ph.start else e.alloc_start
          alloc_end := if stop > e.alloc_end then stop else e.alloc_end } := by
  have hpaddr := ph.p_paddr.isLt
  have hmemsz := ph.p_memsz.isLt
  have halign := (ph.p_align - 1).isLt
  have hmask : ((ph.p_align - 1).setWidth 64 : Addr).toNat = (ph.p_align - 1).toNat := by
    rw [BitVec.toNat_setWidth]
    omega
  have hend : (ph.p_paddr.setWidth 64 + ph.p_memsz.setWidth 64 : Addr).toNat =
      ph.p_paddr.toNat + ph.p_memsz.toNat := by
    rw [BitVec.toNat_add, BitVec.toNat_setWidth, BitVec.toNat_setWidth]
    omega
  have hstop := le_rounded (a := ph.p_paddr.setWidth 64 + ph.p_memsz.setWidth 64)
    (m := (ph.p_align - 1).setWidth 64) (by rw [hend, hmask]; omega)
  exact ⟨_, hend ▸ hstop, if_pos h⟩

theorem Elf32_Phdr.toNat_start (ph : Elf32_Phdr) : ph.start.toNat = ph.p_paddr.toNat := by
  have hpaddr := ph.p_paddr.isLt
  rw [Elf32_Phdr.start, BitVec.toNat_setWidth]
  omega

theorem Extent.covers_add (e : Extent) {ph : Elf32_Phdr} (h : ph.p_type = PT_LOAD) :
    (e.add ph).Covers ph := by
  obtain ⟨stop, hstop, he⟩ := e.add_load h
  have hstart := ph.toNat_start
  rw [he]
  by_cases hinit : e.init = false
  · rw [if_pos hinit]
    exact ⟨rfl, hstart.le, hstop⟩
  · rw [if_neg hinit]
    refine ⟨Bool.eq_true_of_not_eq_false hinit, ?_, ?_⟩
    · by_cases hlt : ph.start < e.alloc_start
      · rw [if_pos hlt, hstart]
      · rw [if_neg hlt, ← hstart]
        exact not_lt.mp hlt
    · by_cases hgt : stop > e.alloc_end
      · rw [if_pos hgt]
        exact hstop
      · rw [if_neg hgt]
        exact hstop.trans (not_lt.mp hgt)

/-- The extent only grows. -/
theorem Extent.Covers.add {e : Extent} {ph : Elf32_Phdr} (h : e.Covers ph) (ph' : Elf32_Phdr) :
    (e.add ph').Covers ph := by
  by_cases hload : ph'.p_type = PT_LOAD
  · obtain ⟨stop, -, he⟩ := e.add_load hload
    have hinit : ¬ e.init = false := by
      rw [h.init]
      decide
    rw [he, if_neg hinit]
    refine ⟨h.init, ?_, ?_⟩
    · by_cases hlt : ph'.start < e.alloc_start
      · rw [if_pos hlt]
        exact (BitVec.lt_def.mp hlt).le.trans h.start
      · rw [if_neg hlt]
        exact h.start
    · by_cases hgt : stop > e.alloc_end
      · rw [if_pos hgt]
        exact h.stop.trans (BitVec.lt_def.mp hgt).le
      · rw [if_neg hgt]
        exact h.stop
  · have he : e.add ph' = e := if_neg hload
    rwa [he]

/-- After the first pass the extent holds every segment that is to be loaded. -/
theorem foldl_covers (l : List Elf32_Phdr) (e : Extent) {ph : Elf32_Phdr}
    (h : (ph ∈ l ∧ ph.p_type = PT_LOAD) ∨ e.Covers ph) : (l.foldl Extent.add e).Covers ph := by
  induction l generalizing e with
  | nil => exact h.resolve_left fun hmem => List.not_mem_nil hmem.1
  | cons ph' l ih =>
    rw [List.foldl_cons]
    rcases h with ⟨hmem, hload⟩ | hcov
    · rcases List.mem_cons.mp hmem with rfl | hmem
      · exact ih _ (.inr (e.covers_add hload))
      · exact ih _ (.inl ⟨hmem, hload⟩)
    · exact ih _ (.inr (hcov.add ph'))

/-! ### The calls for a segment -/

/-- The call writes to these pages only. -/
def Call.Inside (c : Call) (p : Pages) : Prop := ∀ x, c.Writes x → p.Has x

/-- What is asked for, for an extent. -/
def Extent.request (e : Extent) : Pages :=
  ⟨e.alloc_start, ((e.alloc_end - e.alloc_start) / 4096 + 1).toNat⟩

/-- The part of the segment that is in the file does not go past the pages. -/
def Elf32_Phdr.Fits (ph : Elf32_Phdr) (p : Pages) : Prop :=
  ph.p_filesz.toNat = 0 ∨
    ph.p_paddr.toNat + ph.p_filesz.toNat ≤ p.addr.toNat + 4096 * p.pages

section

variable {e : Extent} {ph : Elf32_Phdr}

theorem Extent.Covers.end_le (h : e.Covers ph) :
    e.alloc_end.toNat < e.request.addr.toNat + 4096 * e.request.pages := by
  have h4096 : (4096 : Addr).toNat = 4096 := rfl
  have hone : (1 : Addr).toNat = 1 := rfl
  have hstart := h.start
  have hstop := h.stop
  have hlt := e.alloc_end.isLt
  have hsub : (e.alloc_end - e.alloc_start).toNat = e.alloc_end.toNat - e.alloc_start.toNat :=
    BitVec.toNat_sub_of_le (BitVec.le_def.mpr (by omega))
  show e.alloc_end.toNat <
    e.alloc_start.toNat + 4096 * ((e.alloc_end - e.alloc_start) / 4096 + 1).toNat
  rw [BitVec.toNat_add, BitVec.toNat_udiv, hsub, h4096, hone]
  omega

/-- The pages, from the segment's place on. -/
theorem Extent.Covers.has_iff (h : e.Covers ph) {k : ℕ} (hk : k < 2 ^ 33) :
    e.request.Has (ph.start + BitVec.ofNat 64 k) ↔
      ph.p_paddr.toNat + k < e.request.addr.toNat + 4096 * e.request.pages := by
  have hpaddr := ph.p_paddr.isLt
  have hstart : e.request.addr.toNat ≤ ph.p_paddr.toNat := h.start
  have hx : (ph.start + BitVec.ofNat 64 k).toNat = ph.p_paddr.toNat + k := by
    rw [toNat_at (by rw [ph.toNat_start]; omega), ph.toNat_start]
  have hsub : (ph.start + BitVec.ofNat 64 k - e.request.addr).toNat =
      ph.p_paddr.toNat + k - e.request.addr.toNat := by
    rw [BitVec.toNat_sub_of_le (BitVec.le_def.mpr (by omega)), hx]
  unfold Pages.Has Within
  rw [hsub]
  omega

theorem Extent.Covers.copy_inside_iff (h : e.Covers ph) (s : Addr) :
    (Call.CopyMem ph.start s ph.p_filesz.toNat).Inside e.request ↔ ph.Fits e.request := by
  have hfilesz := ph.p_filesz.isLt
  constructor
  · intro hin
    rcases Nat.eq_zero_or_pos ph.p_filesz.toNat with hzero | hpos
    · exact .inl hzero
    · have hlast := hin _ (within_add (k := ph.p_filesz.toNat - 1) (by omega) (by omega))
      rw [h.has_iff (by omega)] at hlast
      exact .inr (by omega)
  · intro hfits x hx
    obtain ⟨k, hk, rfl⟩ := (within_iff (by omega)).mp hx
    rw [h.has_iff (by omega)]
    rcases hfits with hzero | hle
    · omega
    · omega

theorem Extent.Covers.set_inside (h : e.Covers ph) (hgt : ph.p_memsz > ph.p_filesz) (v : UInt8) :
    (Call.SetMem (ph.start + ph.p_filesz.setWidth 64) (ph.p_memsz - ph.p_filesz).toNat v).Inside
      e.request := by
  have hmemsz := ph.p_memsz.isLt
  have hless : ph.p_filesz.toNat < ph.p_memsz.toNat := BitVec.lt_def.mp hgt
  have hlen : (ph.p_memsz - ph.p_filesz).toNat = ph.p_memsz.toNat - ph.p_filesz.toNat :=
    BitVec.toNat_sub_of_le (BitVec.le_def.mpr hless.le)
  have hoff : (ph.p_filesz.setWidth 64 : Addr) = BitVec.ofNat 64 ph.p_filesz.toNat :=
    (BitVec.ofNat_toNat 64 ph.p_filesz).symm
  intro x hx
  obtain ⟨k, hk, rfl⟩ := (within_iff (by omega)).mp hx
  have hstop := h.stop
  have hend := h.end_le
  rw [hoff, BitVec.add_assoc, ← BitVec.ofNat_add, h.has_iff (by omega)]
  omega

theorem Extent.Covers.calls_inside_iff (h : e.Covers ph) (hload : ph.p_type = PT_LOAD) (B : Addr) :
    (∀ c ∈ callsFor B ph, c.Inside e.request) ↔ ph.Fits e.request := by
  have hcopy := h.copy_inside_iff (B + ph.p_offset.setWidth 64)
  unfold callsFor
  rw [if_pos hload]
  constructor
  · intro hall
    exact hcopy.mp (hall _ List.mem_cons_self)
  · intro hfits c hc
    rcases List.mem_cons.mp hc with rfl | hc
    · exact hcopy.mpr hfits
    · by_cases hgt : ph.p_memsz > ph.p_filesz
      · rw [if_pos hgt] at hc
        obtain rfl := List.mem_singleton.mp hc
        exact h.set_inside hgt 0
      · rw [if_neg hgt] at hc
        exact absurd hc List.not_mem_nil

end

/-! ### The file in memory -/

/-- The file lies in memory as it has been read. -/
def Holds (file : List UInt8) (B : Addr) (m : Memory) : Prop :=
  ∀ o < file.length, m (B + BitVec.ofNat 64 o) = fileByte file o

theorem word_congr {f g : ℕ → UInt8} {o : ℕ} (h : ∀ i < 4, f (o + i) = g (o + i)) :
    word f o = word g o := by
  have h0 : f o = g o := h 0 (by decide)
  rw [word, word, h0, h 1 (by decide), h 2 (by decide), h 3 (by decide)]

theorem Elf32_Ehdr.read_congr {f g : ℕ → UInt8} (h : ∀ o < 52, f o = g o) :
    Elf32_Ehdr.read f = Elf32_Ehdr.read g := by
  have hentry : word f 24 = word g 24 := word_congr fun i hi => h _ (by omega)
  have hphoff : word f 28 = word g 28 := word_congr fun i hi => h _ (by omega)
  have hphnum : half f 44 = half g 44 := by
    rw [half, half, h 44 (by decide), h 45 (by decide)]
  rw [Elf32_Ehdr.read, Elf32_Ehdr.read, hentry, hphoff, hphnum]

theorem Elf32_Phdr.read_congr {f g : ℕ → UInt8} {i : ℕ} (h : ∀ o < 32 * i + 32, f o = g o) :
    Elf32_Phdr.read f i = Elf32_Phdr.read g i := by
  have hword : ∀ k, k + 4 ≤ 32 → word f (32 * i + k) = word g (32 * i + k) := by
    intro k hk
    exact word_congr fun j hj => h _ (by omega)
  have htype : word f (32 * i) = word g (32 * i) := hword 0 (by decide)
  rw [Elf32_Phdr.read, Elf32_Phdr.read, htype, hword 4 (by decide), hword 12 (by decide),
    hword 16 (by decide), hword 20 (by decide), hword 28 (by decide)]

section

variable {file : List UInt8} {B : Addr} {m : Memory}

theorem Holds.of_write (hlen : file.length ≤ 2 ^ 64) : Holds file B (write m B file) := by
  intro o ho
  rw [write, add_sub_self B (by omega), fileByte, List.getD_eq_getElem _ _ ho,
    List.getD_eq_getElem _ _ ho]

theorem Holds.ehdr (h : Holds file B m) (helf : Elf file) :
    Elf32_Ehdr.read (bytesAt m B) = Elf32_Ehdr.read (fileByte file) :=
  Elf32_Ehdr.read_congr fun o ho => h o (ho.trans_le helf.header)

/-- A program header, as it is read through the pointer to the first one. -/
theorem Holds.phdr (h : Holds file B m) (helf : Elf file) {i : ℕ}
    (hi : i < (Elf32_Ehdr.read (fileByte file)).e_phnum.toNat) :
    Elf32_Phdr.read
        (bytesAt m (B + (Elf32_Ehdr.read (fileByte file)).e_phoff.setWidth 64)) i =
      Elf32_Phdr.read
        (fun o => fileByte file ((Elf32_Ehdr.read (fileByte file)).e_phoff.toNat + o)) i := by
  refine Elf32_Phdr.read_congr fun o ho => ?_
  have htable := helf.table
  rw [bytesAt, ← BitVec.ofNat_toNat, BitVec.add_assoc, ← BitVec.ofNat_add]
  exact h _ (by omega)

theorem Holds.headers (h : Holds file B m) (helf : Elf file) :
    (List.range (Elf32_Ehdr.read (fileByte file)).e_phnum.toNat).map
      (Elf32_Phdr.read (bytesAt m (B + (Elf32_Ehdr.read (fileByte file)).e_phoff.setWidth 64))) =
        headers file :=
  List.map_congr_left fun _ hi => h.phdr helf (List.mem_range.mp hi)

theorem Holds.segment (h : Holds file B m) {ph : Elf32_Phdr}
    (hin : ph.p_offset.toNat + ph.p_filesz.toNat ≤ file.length) :
    read m (B + ph.p_offset.setWidth 64) ph.p_filesz.toNat =
      (file.drop ph.p_offset.toNat).take ph.p_filesz.toNat := by
  refine List.ext_getElem (by simp; omega) fun k hk _ => ?_
  rw [length_read] at hk
  have hbyte := h (ph.p_offset.toNat + k) (by omega)
  rw [fileByte, List.getD_eq_getElem _ _ (by omega), BitVec.ofNat_add, ← BitVec.add_assoc,
    BitVec.ofNat_toNat] at hbyte
  rw [List.getElem_take, List.getElem_drop, ← hbyte]
  simp only [Schemes.Bytes.read, List.getElem_map, List.getElem_range]

/-- A call that writes elsewhere leaves the file alone. -/
theorem Holds.call (h : Holds file B m) (fw : Firmware) {c : Call} {p : Pages} (hin : c.Inside p)
    (hlen : file.length ≤ 2 ^ 64) (hapart : Apart p.addr (4096 * p.pages) B file.length) :
    Holds file B (fw.call m c) := by
  intro o ho
  have hout : ¬ c.Writes (B + BitVec.ofNat 64 o) := fun hw =>
    hapart _ ⟨hin _ hw, within_add hlen ho⟩
  rw [← h o ho]
  cases c with
  | CopyMem d s n =>
    have hw : ¬ Within d (read m s n).length (B + BitVec.ofNat 64 o) := by rwa [length_read]
    rw [Firmware.call, fw.copies, write_other hw]
  | SetMem d n v =>
    have hw : ¬ Within d (List.replicate n v).length (B + BitVec.ofNat 64 o) := by
      rwa [List.length_replicate]
    rw [Firmware.call, fw.sets, write_other hw]

theorem Holds.calls (h : Holds file B m) (fw : Firmware) {l : List Call} {p : Pages}
    (hin : ∀ c ∈ l, c.Inside p) (hlen : file.length ≤ 2 ^ 64)
    (hapart : Apart p.addr (4096 * p.pages) B file.length) : Holds file B (l.foldl fw.call m) := by
  induction l generalizing m with
  | nil => exact h
  | cons c l ih =>
    obtain ⟨hc, hl⟩ := List.forall_mem_cons.mp hin
    exact ih (h.call fw hc hlen hapart) hl

end

/-! ### The second pass -/

section

variable {fw : Firmware} {file : List UInt8} {B : Addr} {m : Memory} {ph : Elf32_Phdr} {p : Pages}

theorem length_segment (hin : ph.p_offset.toNat + ph.p_filesz.toNat ≤ file.length) :
    (segment file ph).length = ph.size := by
  unfold segment Elf32_Phdr.size
  rw [List.length_append, List.length_take, List.length_drop, List.length_replicate]
  omega

/-- The calls for a segment store it. -/
theorem calls_segment (h : Holds file B m) (hload : ph.p_type = PT_LOAD)
    (hin : ph.p_offset.toNat + ph.p_filesz.toNat ≤ file.length) :
    (callsFor B ph).foldl fw.call m = write m ph.start (segment file ph) := by
  have hfilesz := ph.p_filesz.isLt
  have hmemsz := ph.p_memsz.isLt
  have hread := h.segment hin
  have hlen : ((file.drop ph.p_offset.toNat).take ph.p_filesz.toNat).length = ph.p_filesz.toNat := by
    rw [← hread, length_read]
  unfold callsFor segment
  rw [if_pos hload, List.foldl_cons]
  have hcopy : fw.call m (.CopyMem (ph.p_paddr.setWidth 64) (B + ph.p_offset.setWidth 64)
      ph.p_filesz.toNat) = write m ph.start ((file.drop ph.p_offset.toNat).take ph.p_filesz.toNat) := by
    rw [Firmware.call, fw.copies, hread]
    rfl
  rw [hcopy]
  by_cases hgt : ph.p_memsz > ph.p_filesz
  · have hless : ph.p_filesz.toNat < ph.p_memsz.toNat := BitVec.lt_def.mp hgt
    have hsub : (ph.p_memsz - ph.p_filesz).toNat = ph.p_memsz.toNat - ph.p_filesz.toNat :=
      BitVec.toNat_sub_of_le (BitVec.le_def.mpr hless.le)
    have hfit : ((file.drop ph.p_offset.toNat).take ph.p_filesz.toNat).length +
        (List.replicate (ph.p_memsz.toNat - ph.p_filesz.toNat) (0 : UInt8)).length ≤ 2 ^ 64 := by
      rw [hlen, List.length_replicate]
      omega
    rw [if_pos hgt, List.foldl_cons, List.foldl_nil, Firmware.call, fw.sets, hsub,
      write_append _ _ hfit, hlen, BitVec.ofNat_toNat]
    rfl
  · have hle : ph.p_memsz.toNat ≤ ph.p_filesz.toNat := by
      have hnot := mt BitVec.lt_def.mpr hgt
      omega
    rw [if_neg hgt, List.foldl_nil, Nat.sub_eq_zero_of_le hle, List.replicate_zero, List.append_nil]

/-- The calls for all headers store the segments one after the other. -/
theorem calls_segments (l : List Elf32_Phdr) (h : Holds file B m) (hlen : file.length ≤ 2 ^ 64)
    (hapart : Apart p.addr (4096 * p.pages) B file.length)
    (hin : ∀ ph ∈ l, ph.p_type = PT_LOAD →
      ph.p_offset.toNat + ph.p_filesz.toNat ≤ file.length)
    (hcalls : ∀ c ∈ l.flatMap (callsFor B), c.Inside p) :
    (l.flatMap (callsFor B)).foldl fw.call m =
      writes m ((l.filter fun ph => ph.p_type = PT_LOAD).map fun ph =>
        (ph.start, segment file ph)) := by
  induction l generalizing m with
  | nil => rfl
  | cons ph l ih =>
    obtain ⟨hph, hl⟩ := List.forall_mem_cons.mp hin
    rw [List.flatMap_cons, List.forall_mem_append] at hcalls
    have hnext := h.calls fw hcalls.1 hlen hapart
    rw [List.flatMap_cons, List.foldl_append, ih hnext hl hcalls.2]
    by_cases hload : ph.p_type = PT_LOAD
    · rw [calls_segment h hload (hph hload), List.filter_cons_of_pos (by simpa using hload),
        List.map_cons, writes_cons]
    · have hnone : callsFor B ph = [] := if_neg hload
      rw [hnone, List.foldl_nil, List.filter_cons_of_neg (by simpa using hload)]

theorem mem_copyLoop {P : Addr} {n i : ℕ} {c : Copied} {x : Call} (h : x ∈ c.calls) :
    x ∈ (copyLoop fw B P n i c).calls := by
  induction n generalizing i c with
  | zero => exact h
  | succ n ih =>
    unfold copyLoop
    split
    · exact ih (List.mem_append_left _ h)
    · exact h

theorem make_append (c : Copied) (l l' : List Call) :
    (c.make fw l).make fw l' = c.make fw (l ++ l') := by
  rw [Copied.make, Copied.make, Copied.make, List.foldl_append, List.append_assoc]

variable (fw) in
/-- As long as all writes are inside, the second pass reads the headers of the file. -/
theorem copyLoop_cases (helf : Elf file) (hlen : file.length ≤ 2 ^ 64)
    (hapart : Apart p.addr (4096 * p.pages) B file.length) {n i : ℕ} {c : Copied}
    (h : Holds file B c.mem) (hi : i ≤ (headers file).length) (hn : i + n = 2 ^ 16) :
    let P := B + (Elf32_Ehdr.read (fileByte file)).e_phoff.setWidth 64
    let l := ((headers file).drop i).flatMap (callsFor B)
    (copyLoop fw B P n i c = c.make fw l ∧ ∀ x ∈ l, x.Inside p) ∨
      (∃ x ∈ (copyLoop fw B P n i c).calls, ¬ x.Inside p) ∧ ∃ x ∈ l, ¬ x.Inside p := by
  have hnum : (headers file).length = (Elf32_Ehdr.read (fileByte file)).e_phnum.toNat := by
    rw [headers, List.length_map, List.length_range]
  have hphnum := (Elf32_Ehdr.read (fileByte file)).e_phnum.isLt
  intro P
  induction n generalizing i c with
  | zero => omega
  | succ n ih =>
    unfold copyLoop
    rw [h.ehdr helf, ← hnum]
    rcases Nat.lt_or_ge i (headers file).length with hlt | hge
    · have hget : (headers file)[i] = Elf32_Phdr.read (bytesAt c.mem P) i := by
        rw [h.phdr helf (hnum ▸ hlt)]
        simp only [headers, List.getElem_map, List.getElem_range]
      rw [if_pos hlt, ← hget, List.drop_eq_getElem_cons hlt, List.flatMap_cons]
      by_cases hin : ∀ x ∈ callsFor B (headers file)[i], x.Inside p
      · have hnext := h.calls fw hin hlen hapart
        rcases ih (c := c.make fw (callsFor B (headers file)[i])) hnext hlt (by omega) with
          ⟨heq, hrest⟩ | ⟨hout, hout'⟩
        · left
          rw [heq, make_append]
          exact ⟨rfl, List.forall_mem_append.mpr ⟨hin, hrest⟩⟩
        · obtain ⟨x, hx, hxout⟩ := hout'
          exact .inr ⟨hout, x, List.mem_append_right _ hx, hxout⟩
      · obtain ⟨x, hx, hxout⟩ := not_forall₂.mp hin
        refine .inr ⟨⟨x, mem_copyLoop (List.mem_append_right _ hx), hxout⟩, x, ?_, hxout⟩
        exact List.mem_append_left _ hx
    · left
      have hnone : (headers file).drop i = [] := List.drop_eq_nil_of_le hge
      rw [if_neg (not_lt.mpr hge), hnone, List.flatMap_nil, Copied.make, List.append_nil]
      exact ⟨rfl, fun x hx => absurd hx List.not_mem_nil⟩

end

/-! ### `RelocateELF` -/

/-- Where `LoadFile` has put the file. -/
theorem LoadFile_holds {fw : Firmware} {file : List UInt8} {used : List Pages} {m m' : Memory}
    {buffer : Pages} (hfile : fw.file = some file) (h : LoadFile fw used m = some (m', buffer)) :
    Holds file buffer.addr m' ∧ file.length ≤ 4096 * buffer.pages ∧ file.length ≤ 2 ^ 64 := by
  unfold LoadFile at h
  simp only [hfile] at h
  cases ha : fw.AllocatePages .AllocateAnyPages ((file.length + 4095) / 4096) used with
  | none =>
    rw [ha] at h
    exact absurd h (by simp)
  | some a =>
    rw [ha] at h
    obtain ⟨rfl, rfl⟩ := Prod.mk.inj (Option.some.inj h)
    have hfits := fw.fits _ _ _ _ ha
    have hlen : file.length ≤ 2 ^ 64 := by omega
    exact ⟨.of_write hlen, by show file.length ≤ 4096 * ((file.length + 4095) / 4096); omega, hlen⟩

/-- What a run of `RelocateELF` has done: it has loaded the file, asked for pages that hold every
    segment and none of the file, and copied. -/
structure Ran (fw : Firmware) (file : List UInt8) (r : Relocated) (B : Addr) (m : Memory) : Prop where
  holds : Holds file B m
  length : file.length ≤ 2 ^ 64
  apart : Apart r.request.addr (4096 * r.request.pages) B file.length
  covers : ∀ ph ∈ loads file, ∃ e : Extent, r.request = e.request ∧ e.Covers ph
  calls : r.calls = (copyLoop fw B (B + (Elf32_Ehdr.read (fileByte file)).e_phoff.setWidth 64)
    (2 ^ 16) 0 ⟨m, []⟩).calls
  mem : r.mem = (copyLoop fw B (B + (Elf32_Ehdr.read (fileByte file)).e_phoff.setWidth 64)
    (2 ^ 16) 0 ⟨m, []⟩).mem

section

variable {fw : Firmware} {file : List UInt8} {undef : Addr × Addr} {used : List Pages} {m : Memory}
  {r : Relocated}

theorem relocate_ran (hfile : fw.file = some file) (helf : Elf file)
    (h : RelocateELF fw undef used m = some r) : ∃ B m₁, Ran fw file r B m₁ := by
  unfold RelocateELF at h
  cases hload : LoadFile fw used m with
  | none =>
    rw [hload] at h
    exact absurd h (by simp)
  | some res =>
    obtain ⟨m₁, buffer⟩ := res
    obtain ⟨hholds, hpages, hlen⟩ := LoadFile_holds hfile hload
    simp only [hload, hholds.ehdr helf, hholds.headers helf] at h
    generalize he : (headers file).foldl Extent.add ⟨undef.1, undef.2, false⟩ = e at h
    cases ha : fw.AllocatePages (.AllocateAddress e.alloc_start)
        ((e.alloc_end - e.alloc_start) / 4096 + 1).toNat (buffer :: used) with
    | none =>
      rw [ha] at h
      exact absurd h (by simp)
    | some a =>
      rw [ha] at h
      obtain rfl := Option.some.inj h
      obtain rfl := fw.at_address _ _ _ _ ha
      refine ⟨buffer.addr, m₁, hholds, hlen, ?_, fun ph hph => ⟨e, rfl, ?_⟩, rfl, rfl⟩
      · exact (fw.unused _ _ _ _ ha buffer List.mem_cons_self).mono le_rfl hpages
      · obtain ⟨hmem, htype⟩ := List.mem_filter.mp hph
        exact he ▸ foldl_covers (headers file) _ (.inl ⟨hmem, of_decide_eq_true htype⟩)

theorem Ran.calls_inside_iff {B : Addr} {m₁ : Memory} (h : Ran fw file r B m₁) :
    (∀ c ∈ (headers file).flatMap (callsFor B), c.Inside r.request) ↔
      ∀ ph ∈ loads file, ph.Fits r.request := by
  constructor
  · intro hall ph hph
    obtain ⟨e, hreq, hcov⟩ := h.covers ph hph
    obtain ⟨hmem, htype⟩ := List.mem_filter.mp hph
    rw [hreq]
    refine (hcov.calls_inside_iff (of_decide_eq_true htype) B).mp fun c hc => ?_
    rw [← hreq]
    exact hall c (List.mem_flatMap.mpr ⟨ph, hmem, hc⟩)
  · intro hfits c hc
    obtain ⟨ph, hmem, hc⟩ := List.mem_flatMap.mp hc
    by_cases htype : ph.p_type = PT_LOAD
    · have hph : ph ∈ loads file := List.mem_filter.mpr ⟨hmem, decide_eq_true htype⟩
      obtain ⟨e, hreq, hcov⟩ := h.covers ph hph
      have hfit := hfits ph hph
      rw [hreq] at hfit ⊢
      exact (hcov.calls_inside_iff htype B).mpr hfit c hc
    · have hnone : callsFor B ph = [] := if_neg htype
      rw [hnone] at hc
      exact absurd hc List.not_mem_nil

/-- A segment whose file part is no longer than the rest fits. -/
theorem Ran.fits_of_le {B : Addr} {m₁ : Memory} (h : Ran fw file r B m₁) {ph : Elf32_Phdr}
    (hph : ph ∈ loads file) (hle : ph.p_filesz ≤ ph.p_memsz) : ph.Fits r.request := by
  obtain ⟨e, hreq, hcov⟩ := h.covers ph hph
  have hstop := hcov.stop
  have hend := hcov.end_le
  have hsize := BitVec.le_def.mp hle
  rw [hreq]
  exact .inr (by omega)

/-- The second pass, as it is run. -/
theorem Ran.cases {B : Addr} {m₁ : Memory} (h : Ran fw file r B m₁) (helf : Elf file) :
    ((r.calls = (headers file).flatMap (callsFor B) ∧
        r.mem = ((headers file).flatMap (callsFor B)).foldl fw.call m₁) ∧
      ∀ x ∈ (headers file).flatMap (callsFor B), x.Inside r.request) ∨
      (∃ x ∈ r.calls, ¬ x.Inside r.request) ∧
        ∃ x ∈ (headers file).flatMap (callsFor B), ¬ x.Inside r.request := by
  have hcases := copyLoop_cases fw (c := ⟨m₁, []⟩) helf h.length h.apart h.holds
    (Nat.zero_le _) (Nat.zero_add (2 ^ 16))
  simp only [List.drop_zero] at hcases
  rw [h.calls, h.mem]
  rcases hcases with ⟨heq, hin⟩ | hout
  · rw [heq]
    exact .inl ⟨⟨rfl, rfl⟩, hin⟩
  · exact .inr hout

theorem Ran.inside_iff {B : Addr} {m₁ : Memory} (h : Ran fw file r B m₁) (helf : Elf file) :
    (∀ c ∈ r.calls, c.Inside r.request) ↔ ∀ ph ∈ loads file, ph.Fits r.request := by
  rw [← h.calls_inside_iff]
  rcases h.cases helf with ⟨⟨hcalls, -⟩, -⟩ | ⟨⟨x, hx, hxout⟩, y, hy, hyout⟩
  · rw [hcalls]
  · exact iff_of_false (fun hall => hxout (hall x hx)) fun hall => hyout (hall y hy)

/-- If everything is written inside, every segment is where it should be. -/
theorem Ran.loaded {B : Addr} {m₁ : Memory} (h : Ran fw file r B m₁) (helf : Elf file)
    (hfits : ∀ ph ∈ loads file, ph.Fits r.request) :
    ∀ ph ∈ loads file, read r.mem ph.start ph.size = segment file ph := by
  have hin := h.calls_inside_iff.mpr hfits
  have hlen : ∀ ph ∈ loads file, (segment file ph).length = ph.size := fun ph hph =>
    length_segment (helf.segments ph hph)
  have hmem : r.mem = writes m₁ ((loads file).map fun ph => (ph.start, segment file ph)) := by
    rcases h.cases helf with ⟨⟨-, hmem⟩, -⟩ | ⟨-, y, hy, hyout⟩
    · rw [hmem]
      refine calls_segments (headers file) h.holds h.length h.apart (fun ph hph htype => ?_) hin
      exact helf.segments ph (List.mem_filter.mpr ⟨hph, decide_eq_true htype⟩)
    · exact absurd (hin y hy) hyout
  have hapart : ((loads file).map fun ph => (ph.start, segment file ph)).Pairwise
      fun s t => Apart s.1 s.2.length t.1 t.2.length := by
    refine List.pairwise_map.mpr (helf.apart.imp_of_mem fun {x y} hx hy hxy => ?_)
    rwa [hlen x hx, hlen y hy]
  intro ph hph
  have hsize : (segment file ph).length ≤ 2 ^ 64 := by
    have hfilesz := ph.p_filesz.isLt
    have hmemsz := ph.p_memsz.isLt
    rw [hlen ph hph, Elf32_Phdr.size]
    omega
  have hread := read_writes_apart_all (m := m₁) hapart (List.mem_map.mpr ⟨ph, hph, rfl⟩) hsize
  rwa [← hmem, hlen ph hph] at hread

/-- What is written lies in the pages that were asked for iff the file part of each segment does, as
    when it is not longer than the segment; and then each segment is where it should be, with zeroes
    after its file part. -/
theorem relocate_iff (hfile : fw.file = some file) (helf : Elf file)
    (h : RelocateELF fw undef used m = some r) :
    ((∀ c ∈ r.calls, c.Inside r.request) ↔ ∀ ph ∈ loads file, ph.Fits r.request) ∧
    ((∀ ph ∈ loads file, ph.Fits r.request) →
      ∀ ph ∈ loads file, read r.mem ph.start ph.size = segment file ph) ∧
    ∀ ph ∈ loads file, ph.p_filesz ≤ ph.p_memsz → ph.Fits r.request := by
  obtain ⟨B, m₁, hran⟩ := relocate_ran hfile helf h
  exact ⟨hran.inside_iff helf, hran.loaded helf, fun _ hph hle => hran.fits_of_le hph hle⟩

/-- With the pages that it asks for, `RelocateELF` returns. -/
theorem relocate_some (hfile : fw.file = some file) (helf : Elf file) {m₁ : Memory} {buffer : Pages}
    (hload : LoadFile fw used m = some (m₁, buffer)) {e : Extent} {a : Addr}
    (he : (headers file).foldl Extent.add ⟨undef.1, undef.2, false⟩ = e)
    (ha : fw.AllocatePages (.AllocateAddress e.alloc_start) e.request.pages (buffer :: used) =
      some a) :
    ∃ r, RelocateELF fw undef used m = some r ∧ r.request = e.request := by
  obtain ⟨hholds, -, -⟩ := LoadFile_holds hfile hload
  unfold RelocateELF
  simp only [hload, hholds.ehdr helf, hholds.headers helf, he]
  unfold Extent.request at ha
  simp only [ha]
  exact ⟨_, rfl, rfl⟩

end

/-! ### A machine with free memory -/

theorem apart_of_le {w : ℕ} {a b : BitVec w} {n k : ℕ} (hab : a.toNat + n ≤ b.toNat)
    (hb : b.toNat + k ≤ 2 ^ w) : Apart a n b k := by
  rintro x ⟨ha, hb'⟩
  have hlt := b.isLt
  obtain ⟨i, hi, rfl⟩ := (within_iff (by omega)).mp ha
  obtain ⟨j, hj, he⟩ := (within_iff (by omega)).mp hb'
  have he' := congrArg BitVec.toNat he
  rw [toNat_at (by omega), toNat_at (by omega)] at he'
  omega

/-- Some pages lie below or above others. -/
def Clear (a : Addr) (n : ℕ) (p : Pages) : Prop :=
  (a.toNat + 4096 * n ≤ p.addr.toNat ∧ p.addr.toNat + 4096 * p.pages ≤ 2 ^ 64) ∨
    p.addr.toNat + 4096 * p.pages ≤ a.toNat

instance (a : Addr) (n : ℕ) (p : Pages) : Decidable (Clear a n p) :=
  inferInstanceAs (Decidable (_ ∨ _))

/-- Pages are given wherever they are clear of those in use, from 64 MiB on if any will do. -/
def allocate (type : EFI_ALLOCATE_TYPE) (n : ℕ) (used : List Pages) : Option Addr :=
  let a : Addr :=
    match type with
    | .AllocateAnyPages => 0x4000000
    | .AllocateAddress addr => addr
  if a.toNat + 4096 * n ≤ 2 ^ 64 ∧ ∀ p ∈ used, Clear a n p then some a else none

theorem allocate_eq {type : EFI_ALLOCATE_TYPE} {n : ℕ} {used : List Pages} {a : Addr}
    (htype : type = .AllocateAnyPages ∧ a = 0x4000000 ∨ type = .AllocateAddress a)
    (hfits : a.toNat + 4096 * n ≤ 2 ^ 64) (hclear : ∀ p ∈ used, Clear a n p) :
    allocate type n used = some a := by
  rcases htype with ⟨rfl, rfl⟩ | rfl
  · exact if_pos ⟨hfits, hclear⟩
  · exact if_pos ⟨hfits, hclear⟩

theorem allocate_eq_some {type : EFI_ALLOCATE_TYPE} {n : ℕ} {used : List Pages} {a : Addr}
    (h : allocate type n used = some a) :
    a.toNat + 4096 * n ≤ 2 ^ 64 ∧ (∀ p ∈ used, Clear a n p) ∧
      ∀ addr, type = .AllocateAddress addr → a = addr := by
  cases type with
  | AllocateAnyPages =>
    obtain ⟨⟨hfits, hclear⟩, he⟩ := Option.ite_none_right_eq_some.mp h
    obtain rfl := Option.some.inj he
    exact ⟨hfits, hclear, fun addr he => absurd he (by simp)⟩
  | AllocateAddress addr =>
    obtain ⟨⟨hfits, hclear⟩, he⟩ := Option.ite_none_right_eq_some.mp h
    obtain rfl := Option.some.inj he
    exact ⟨hfits, hclear, fun _ he => EFI_ALLOCATE_TYPE.AllocateAddress.inj he⟩

/-- The firmware of such a machine, with a file. -/
def firmware (file : List UInt8) : Firmware where
  file := some file
  AllocatePages := allocate
  CopyMem := fun m d s n => write m d (read m s n)
  SetMem := fun m d n v => write m d (List.replicate n v)
  fits := fun _ _ _ _ h => (allocate_eq_some h).1
  unused := by
    intro type n used a h p hp
    obtain ⟨hfits, hclear, -⟩ := allocate_eq_some h
    rcases hclear p hp with ⟨hle, hend⟩ | hle
    · exact apart_of_le hle hend
    · exact (apart_of_le hle hfits).symm
  at_address := fun addr _ _ _ h => (allocate_eq_some h).2.2 addr rfl
  copies := fun _ _ _ _ => rfl
  sets := fun _ _ _ _ => rfl

/-- A kernel with one segment, which goes to 1 MiB. -/
def kernel (data : List UInt8) (filesz memsz : ℕ) : List UInt8 :=
  [0x7F, 0x45, 0x4C, 0x46, 1, 1, 1, 0, 0, 0, 0, 0, 0, 0, 0, 0] ++
    le 2 2 ++ le 2 3 ++ le 4 1 ++ le 4 0x100000 ++ le 4 52 ++ le 4 0 ++ le 4 0 ++
    le 2 52 ++ le 2 32 ++ le 2 1 ++ le 2 0 ++ le 2 0 ++ le 2 0 ++
    (le 4 1 ++ le 4 84 ++ le 4 0x80100000 ++ le 4 0x100000 ++ le 4 filesz ++ le 4 memsz ++ le 4 7 ++
      le 4 4096) ++ data

theorem length_kernel (data : List UInt8) (filesz memsz : ℕ) :
    (kernel data filesz memsz).length = 84 + data.length := by
  simp only [kernel, List.length_append, length_le, List.length_cons, List.length_nil]

/-- The firmware loads a file of less than 32 MiB. -/
theorem LoadFile_firmware {file : List UInt8} (hfile : file.length ≤ 0x2000000) {m : Memory} :
    ∃ n, n ≤ 0x2001 ∧ LoadFile (firmware file) [] m =
      some (write m 0x4000000 file, ⟨0x4000000, n⟩) := by
  have haddr : (0x4000000 : Addr).toNat = 0x4000000 := BitVec.toNat_ofNat _ _
  have ha : allocate .AllocateAnyPages ((file.length + 4095) / 4096) [] = some 0x4000000 :=
    allocate_eq (.inl ⟨rfl, rfl⟩) (by rw [haddr]; omega) (fun p hp => absurd hp List.not_mem_nil)
  refine ⟨(file.length + 4095) / 4096, by omega, ?_⟩
  simp only [LoadFile, firmware, ha]

/-- Below the file it gives the pages that are asked for. -/
theorem allocate_below {n k : ℕ} (hn : n ≤ 2) (hk : k ≤ 0x2001) :
    allocate (.AllocateAddress 0x100000) n [⟨0x4000000, k⟩] = some 0x100000 := by
  have hany : (0x4000000 : Addr).toNat = 0x4000000 := BitVec.toNat_ofNat _ _
  have haddr : (0x100000 : Addr).toNat = 0x100000 := BitVec.toNat_ofNat _ _
  refine allocate_eq (.inr rfl) ?_ (fun p hp => ?_)
  · rw [haddr]
    omega
  · obtain rfl := List.mem_singleton.mp hp
    refine .inl ⟨?_, ?_⟩
    · rw [haddr, hany]
      omega
    · rw [hany]
      show _ + 4096 * k ≤ _
      omega

/-- So a file whose segments need two pages at 1 MiB is relocated. -/
theorem relocate_firmware {file : List UInt8} (hfile : file.length ≤ 0x2000000) (helf : Elf file)
    {e : Extent} (he : (headers file).foldl Extent.add ⟨0, 0, false⟩ = e)
    (hstart : e.alloc_start = 0x100000) (hpages : e.request.pages ≤ 2) :
    ∃ r, RelocateELF (firmware file) (0, 0) [] (fun _ => 0) = some r ∧ r.request = e.request := by
  obtain ⟨k, hk, hload⟩ := LoadFile_firmware hfile (m := fun _ => 0)
  refine relocate_some (a := 0x100000) rfl helf hload he ?_
  rw [hstart]
  exact allocate_below hpages hk

theorem headers_small : headers (kernel [1, 2, 3, 4] 4 8) = [⟨1, 84, 0x100000, 4, 8, 4096⟩] := by
  decide +kernel

theorem headers_long : headers (kernel (List.replicate 4097 1) 4097 0) =
    [⟨1, 84, 0x100000, 4097, 0, 4096⟩] := by decide +kernel

theorem Elf.of_single {file : List UInt8} {ph : Elf32_Phdr} (hheader : 84 ≤ file.length)
    (hphoff : (Elf32_Ehdr.read (fileByte file)).e_phoff = 52)
    (hheaders : headers file = [ph]) (hload : ph.p_type = PT_LOAD)
    (hin : ph.p_offset.toNat + ph.p_filesz.toNat ≤ file.length) : Elf file := by
  have hloads : loads file = [ph] := by
    rw [loads, hheaders, List.filter_cons_of_pos (by simpa using hload), List.filter_nil]
  have hnum : (Elf32_Ehdr.read (fileByte file)).e_phnum.toNat = 1 := by
    have hlen := congrArg List.length hheaders
    rwa [headers, List.length_map, List.length_range] at hlen
  have h52 : (52 : Elf32_Word).toNat = 52 := rfl
  refine ⟨by omega, ?_, ?_, ?_, ?_⟩
  · rw [hphoff, hnum, h52]
    exact hheader
  · rw [hloads]
    exact List.cons_ne_nil _ _
  · intro ph' hph
    rw [hloads] at hph
    obtain rfl := List.mem_singleton.mp hph
    exact hin
  · rw [hloads]
    exact List.pairwise_singleton _ _

theorem relocate_iff_small : ∃ r,
    RelocateELF (firmware (kernel [1, 2, 3, 4] 4 8)) (0, 0) [] (fun _ => 0) = some r ∧
      (∀ c ∈ r.calls, c.Inside r.request) ∧
      ∀ ph ∈ loads (kernel [1, 2, 3, 4] 4 8),
        read r.mem ph.start ph.size = [1, 2, 3, 4, 0, 0, 0, 0] := by
  have helf : Elf (kernel [1, 2, 3, 4] 4 8) :=
    .of_single (by decide) (by decide) headers_small rfl (by decide)
  obtain ⟨r, hr, -⟩ := relocate_firmware (e := ⟨0x100000, 0x101000, true⟩) (by decide) helf
    (by rw [headers_small]; rfl) rfl (by decide)
  obtain ⟨hiff, hloaded, hle⟩ := relocate_iff (r := r) rfl helf hr
  have hloads : loads (kernel [1, 2, 3, 4] 4 8) = [⟨1, 84, 0x100000, 4, 8, 4096⟩] := by
    rw [loads, headers_small]
    rfl
  have hfits : ∀ ph ∈ loads (kernel [1, 2, 3, 4] 4 8), ph.Fits r.request := by
    intro ph hph
    refine hle ph hph ?_
    rw [hloads] at hph
    obtain rfl := List.mem_singleton.mp hph
    decide
  refine ⟨r, hr, hiff.mpr hfits, fun ph hph => ?_⟩
  rw [hloaded hfits ph hph]
  rw [hloads] at hph
  obtain rfl := List.mem_singleton.mp hph
  decide

/-- A file part of 4097 bytes in a segment of none: the last byte is written past the only page. -/
theorem long_file_part : ∃ r,
    RelocateELF (firmware (kernel (List.replicate 4097 1) 4097 0)) (0, 0) [] (fun _ => 0) = some r ∧
      ¬ ∀ c ∈ r.calls, c.Inside r.request := by
  have hlen := length_kernel (List.replicate 4097 1) 4097 0
  rw [List.length_replicate] at hlen
  have helf : Elf (kernel (List.replicate 4097 1) 4097 0) :=
    .of_single (by omega) (by decide +kernel) headers_long rfl (by rw [hlen]; decide)
  obtain ⟨r, hr, hreq⟩ := relocate_firmware (e := ⟨0x100000, 0x100000, true⟩)
    (by rw [hlen]; decide) helf (by rw [headers_long]; rfl) rfl (by decide)
  obtain ⟨B, m₁, hran⟩ := relocate_ran rfl helf hr
  refine ⟨r, hr, ?_⟩
  rw [hran.inside_iff helf, loads, headers_long, hreq]
  intro hall
  have hfits := hall ⟨1, 84, 0x100000, 4097, 0, 4096⟩ (List.mem_singleton_self _)
  unfold Elf32_Phdr.Fits at hfits
  exact absurd hfits (by decide)

end Xv6.Boot
