import Xv6.Net.Card

/-! @src i8254.c | name:The buffers of the descriptors | layer:proof

    The second loop of the initialisation goes on by one descriptor for each page, although it sets
    two: what it leaves is one page for each of the descriptors 0 to 127, the second half of the
    last page for descriptor 128, and no buffer for the rest. -/

namespace Xv6.Net

open Xv6.Schemes Xv6.Schemes.Bytes

variable {ring : Word} {i j off o n : ℕ} {k : Pages} {mem : Mem 32}

/-! ### Fields of descriptors -/

/-- A field of a descriptor reaches no further than its bytes. -/
theorem within_field (hi : 16 * i + o < 2 ^ 16) (hj : 16 * j + off + n < 2 ^ 16) :
    Within (field ring j off) n (field ring i o) ↔
      16 * j + off ≤ 16 * i + o ∧ 16 * i + o < 16 * j + off + n := by
  unfold Within field
  bv_omega

theorem within_setField {v : ℕ} (hi : 16 * i + o < 2 ^ 16) (hj : 16 * j + off + n < 2 ^ 16) :
    Within (setField ring j off n v).1 (setField ring j off n v).2.length (field ring i o) ↔
      16 * j + off ≤ 16 * i + o ∧ 16 * i + o < 16 * j + off + n := by
  unfold setField
  rw [length_le]
  exact within_field hi hj

/-- Stores into a ring, as descriptors, offsets and lengths. -/
theorem clearRecv_fields {s : Store} (hs : s ∈ clearRecv ring) :
    ∃ i off n, i < DESC_NUM ∧ 4 ≤ off ∧ off + n ≤ 16 ∧ s = setField ring i off n 0 := by
  obtain ⟨i, hi, hs⟩ := List.mem_flatMap.mp hs
  refine ⟨i, ?_⟩
  have hi := List.mem_range.mp hi
  simp only [List.mem_cons, List.not_mem_nil, or_false] at hs
  rcases hs with rfl | rfl | rfl | rfl | rfl | rfl <;>
    exact ⟨_, _, hi, by decide, by decide, rfl⟩

theorem clearSend_fields {s : Store} (hs : s ∈ clearSend ring) :
    ∃ i off n, i < DESC_NUM ∧ 4 ≤ off ∧ off + n ≤ 16 ∧ s = setField ring i off n 0 := by
  obtain ⟨i, hi, hs⟩ := List.mem_flatMap.mp hs
  refine ⟨i, ?_⟩
  have hi := List.mem_range.mp hi
  simp only [List.mem_cons, List.not_mem_nil, or_false] at hs
  rcases hs with rfl | rfl | rfl | rfl | rfl | rfl | rfl <;>
    exact ⟨_, _, hi, by decide, by decide, rfl⟩

/-- The second loop sets the addresses of one descriptor more than there are pages. -/
theorem buffers_fields {pages : List Word} {s : Store} (hs : s ∈ buffers ring i pages) :
    ∃ j v, j ≤ i + pages.length ∧ s = setField ring j 0 4 v := by
  induction pages generalizing i with
  | nil => exact absurd hs List.not_mem_nil
  | cons page pages ih =>
    unfold buffers at hs
    split at hs
    · exact absurd hs List.not_mem_nil
    · rcases List.mem_cons.mp hs with rfl | hs
      · exact ⟨i, _, by omega, rfl⟩
      rcases List.mem_cons.mp hs with rfl | hs
      · exact ⟨i + 1, _, by simp, rfl⟩
      · obtain ⟨j, v, hj, rfl⟩ := ih hs
        exact ⟨j, v, by simp only [List.length_cons]; omega, rfl⟩

/-! ### What the initialisation leaves -/

/-- All four bytes of the buffer address of descriptor `i` are stored. -/
def IsSet (stores : List Store) (ring : Word) (i : ℕ) : Prop :=
  ∀ x, Within (field ring i 0) 4 x → ∃ s ∈ stores, Within s.1 s.2.length x

/-- The buffer of descriptor `i`. -/
def bufferOf (mem : Mem 32) (ring : Word) (i : ℕ) : Word :=
  P2V (BitVec.ofNat 32 (num (read mem (field ring i 0) 4)))

/-! ### The descriptors that have a buffer -/

theorem field_apart {i j off o n k : ℕ} (hi : 16 * i + o + k < 2 ^ 16)
    (hj : 16 * j + off + n < 2 ^ 16) (h : 16 * j + off + n ≤ 16 * i + o ∨ 16 * i + o + k ≤ 16 * j + off) :
    Apart (field ring j off) n (field ring i o) k := by
  rintro x ⟨hx, hx'⟩
  unfold Within field at hx hx'
  bv_omega

theorem bufferOf_write (mem : Mem 32) (ring : Word) (i : ℕ) (a : Word) :
    bufferOf (write mem (setField ring i 0 4 (V2P a).toNat).1 (setField ring i 0 4 (V2P a).toNat).2)
      ring i = a := by
  have hread := read_write (l := le 4 (V2P a).toNat) mem (field ring i 0) (by simp)
  rw [length_le] at hread
  unfold bufferOf setField
  rw [hread, num_le]
  unfold P2V V2P
  bv_omega

theorem bufferOf_write_other {a : ℕ} (hne : j ≠ i) (hi : i < 2 ^ 11) (hj : j < 2 ^ 11) :
    bufferOf (write mem (setField ring j 0 4 a).1 (setField ring j 0 4 a).2) ring i =
      bufferOf mem ring i := by
  unfold bufferOf setField
  rw [read_write_apart _ (by decide)]
  rw [length_le]
  exact field_apart (by omega) (by omega) (by omega)

/-- The second loop leaves a page to each descriptor, and the other half of the last one to the
    descriptor after them. -/
theorem buffers_spec {pages : List Word} (hz : ∀ p ∈ pages, p ≠ 0)
    (hlt : i + pages.length < 2 ^ 10) :
    (∀ j < i, bufferOf (writes mem (buffers ring i pages)) ring j = bufferOf mem ring j) ∧
      (∀ j (hj : j < pages.length),
        bufferOf (writes mem (buffers ring i pages)) ring (i + j) = pages[j]) ∧
      (∀ hne : pages ≠ [], bufferOf (writes mem (buffers ring i pages)) ring (i + pages.length) =
        pages.getLast hne + 0x800) := by
  induction pages generalizing i mem with
  | nil => exact ⟨fun _ _ => rfl, fun j hj => absurd hj (by simp), fun hne => absurd rfl hne⟩
  | cons page pages ih =>
    obtain ⟨hpage, hz⟩ := List.forall_mem_cons.mp hz
    rw [List.length_cons] at hlt
    simp only [buffers, if_neg hpage, writes_cons]
    obtain ⟨hbelow, hpages, hlast⟩ := @ih (i + 1) (write (write mem
      (setField ring i 0 4 (V2P page).toNat).1 (setField ring i 0 4 (V2P page).toNat).2)
        (setField ring (i + 1) 0 4 (V2P (page + 0x800)).toNat).1
          (setField ring (i + 1) 0 4 (V2P (page + 0x800)).toNat).2) hz (by omega)
    refine ⟨fun j hj => ?_, fun j hj => ?_, fun hne => ?_⟩
    · rw [hbelow j (by omega), bufferOf_write_other (by omega) (by omega) (by omega),
        bufferOf_write_other (by omega) (by omega) (by omega)]
    · cases j with
      | zero =>
        rw [Nat.add_zero i, hbelow i (by omega),
          bufferOf_write_other (by omega) (by omega) (by omega), bufferOf_write]
        rfl
      | succ j =>
        have := hpages j (by simpa using hj)
        rw [show i + (j + 1) = i + 1 + j by omega, this]
        rfl
    · rw [List.length_cons, show i + (pages.length + 1) = i + 1 + pages.length by omega]
      cases pages with
      | nil =>
        simp only [buffers, List.length_nil, Nat.add_zero]
        exact bufferOf_write _ ring (i + 1) (page + 0x800)
      | cons q pages =>
        rw [hlast (List.cons_ne_nil q pages)]
        rfl

/-- The buffers of the descriptors up to 128 after the initialisation. -/
def Pages.buffer (k : Pages) (i : ℕ) : Word :=
  if i < DESC_NUM / 2 then k.pages.getD i 0 else k.pages.getD (DESC_NUM / 2 - 1) 0 + 0x800

theorem bufferOf_init {clear : List Store} (hi : i ≤ DESC_NUM / 2) :
    bufferOf (writes mem (clear ++ buffers k.ring 0 (k.pages.take (DESC_NUM / 2)))) k.ring i =
      k.buffer i := by
  have hlength := k.length
  have hz : ∀ p ∈ k.pages, p ≠ 0 := by
    rintro p hp rfl
    have := k.kernel 0 (List.mem_cons_of_mem _ hp)
    exact absurd this (by decide)
  rw [← hlength, List.take_length, writes_append]
  obtain ⟨-, hpages, hlast⟩ := @buffers_spec k.ring 0 (writes mem clear) k.pages hz
    (by rw [hlength]; decide)
  unfold Pages.buffer
  rcases Nat.lt_or_ge i (DESC_NUM / 2) with h | h
  · have hlt : i < k.pages.length := by omega
    rw [if_pos h, List.getD_eq_getElem _ _ hlt, ← hpages i hlt, Nat.zero_add]
  · obtain rfl : i = DESC_NUM / 2 := by omega
    have hne : k.pages ≠ [] := by
      intro he
      rw [he] at hlength
      exact absurd hlength (by decide)
    have hlt : DESC_NUM / 2 - 1 < k.pages.length := by
      rw [hlength]
      decide
    have := hlast hne
    rw [Nat.zero_add, hlength] at this
    rw [if_neg (lt_irrefl _), this, List.getLast_eq_getElem, List.getD_eq_getElem _ _ hlt]
    simp only [hlength]

/-- They do not overlap. -/
theorem buffer_apart (k : Pages) (hi : i ≤ DESC_NUM / 2) (hj : j ≤ DESC_NUM / 2) (hne : i ≠ j) :
    Apart (k.buffer i) 2048 (k.buffer j) 2048 := by
  have hlength := k.length
  have hpage : ∀ x, x < DESC_NUM / 2 → (k.pages.getD x 0).toNat % 4096 = 0 := by
    intro x hx
    rw [List.getD_eq_getElem _ _ (by omega)]
    exact k.aligned _ (List.mem_cons_of_mem _ (List.getElem_mem _))
  have hdiff : ∀ x y, x < DESC_NUM / 2 → y < DESC_NUM / 2 → x ≠ y →
      (k.pages.getD x 0).toNat ≠ (k.pages.getD y 0).toNat := by
    intro x y hx hy hxy he
    rw [List.getD_eq_getElem _ _ (by omega), List.getD_eq_getElem _ _ (by omega)] at he
    exact hxy ((List.Nodup.getElem_inj_iff (List.nodup_cons.mp k.nodup).2).mp
      (BitVec.eq_of_toNat_eq he))
  rw [DESC_NUM_eq] at hi hj hpage hdiff
  unfold Pages.buffer
  rw [DESC_NUM_eq, show 256 / 2 - 1 = 127 from rfl]
  have h127 := hpage 127 (by omega)
  split <;> split
  · rename_i hi' hj'
    have := hpage i hi'
    have := hpage j hj'
    have := hdiff i j hi' hj' hne
    refine Apart.of_sub ?_ ?_ <;> bv_omega
  · rename_i hi' hj'
    have := hpage i hi'
    by_cases he : i = 127
    · subst he
      refine Apart.of_sub ?_ ?_ <;> bv_omega
    · have := hdiff i 127 hi' (by omega) he
      refine Apart.of_sub ?_ ?_ <;> bv_omega
  · rename_i hi' hj'
    have := hpage j hj'
    by_cases he : j = 127
    · subst he
      refine Apart.of_sub ?_ ?_ <;> bv_omega
    · have := hdiff j 127 hj' (by omega) he
      refine Apart.of_sub ?_ ?_ <;> bv_omega
  · omega

theorem getD_mem (k : Pages) (hi : i < DESC_NUM / 2) : k.pages.getD i 0 ∈ k.pages := by
  have hlt : i < k.pages.length := by
    rw [k.length]
    exact hi
  rw [List.getD_eq_getElem _ _ hlt]
  exact List.getElem_mem hlt

/-- Each lies in a page. -/
theorem buffer_inside (k : Pages) (i : ℕ) : ∃ page ∈ k.pages, ∀ x,
    Within (k.buffer i) 2048 x → Within page PGSIZE x := by
  unfold Pages.buffer
  split
  · rename_i hi
    refine ⟨_, getD_mem k hi, fun x hx => ?_⟩
    exact lt_trans hx (by decide)
  · have hmem := @getD_mem (DESC_NUM / 2 - 1) k (by decide)
    refine ⟨_, hmem, fun x hx => ?_⟩
    have hpage : (k.pages.getD (DESC_NUM / 2 - 1) 0).toNat % 4096 = 0 :=
      k.aligned _ (List.mem_cons_of_mem _ hmem)
    show _ < 4096
    unfold Within at hx
    generalize k.pages.getD (DESC_NUM / 2 - 1) 0 = page at hx hpage ⊢
    bv_omega

/-- The descriptors up to 128 have buffers of their own after `i8254_init_send`. -/
theorem init_buffers (mem : Mem 32) (k : Pages) :
    (∀ i ≤ DESC_NUM / 2, (Sys.init mem k).buffer i = k.buffer i) ∧
      (∀ i ≤ DESC_NUM / 2, ∀ j ≤ DESC_NUM / 2, i ≠ j →
        Apart (k.buffer i) 2048 (k.buffer j) 2048) ∧
      ∀ i ≤ DESC_NUM / 2, ∃ page ∈ k.pages, ∀ x,
        Within (k.buffer i) 2048 x → Within page PGSIZE x := by
  have hring : (Sys.init mem k).txdesc = k.ring := by
    unfold Sys.txdesc Sys.init P2V V2P
    bv_omega
  refine ⟨fun i hi => ?_, fun i hi j hj hne => buffer_apart k hi hj hne,
    fun i _ => buffer_inside k i⟩
  have hspec := @bufferOf_init i k mem (clearSend k.ring) hi
  have hmem : (Sys.init mem k).mem = writes mem (i8254_init_send k.ring k.pages) := by
    simp only [Sys.init]
  unfold bufferOf at hspec
  unfold Sys.buffer
  rw [hring, hmem, i8254_init_send, hspec]

/-! ### The claim of the driver -/

/-- The buffers of a ring are set, do not overlap, and lie in its pages. -/
structure BuffersOk (k : Pages) (stores : List Store) (mem : Mem 32) : Prop where
  set : ∀ i < DESC_NUM, IsSet stores k.ring i
  apart : ∀ i < DESC_NUM, ∀ j < DESC_NUM, i ≠ j →
    Apart (bufferOf mem k.ring i) 2048 (bufferOf mem k.ring j) 2048
  inside : ∀ i < DESC_NUM, ∃ page ∈ k.pages, ∀ x,
    Within (bufferOf mem k.ring i) 2048 x → Within page PGSIZE x

/-- A step changes only the buffer of the descriptor at the tail, and the descriptor. -/
def WritesBuffer (s : Sys) (a : Act) : Prop := ∀ t, s.Step a t → ∀ x, t.mem x ≠ s.mem x →
  Within (s.buffer (s.tdt % DESC_NUM)) 2048 x ∨ Within (field s.txdesc (s.tdt % DESC_NUM) 0) 16 x

/-- `i8254_send` is called with a packet of at most 2048 bytes. -/
def SmallPacket (_ : Sys) : Act → Prop
  | .send pkt => pkt.length ≤ 2048
  | _ => True

/-- The buffers of the card are real and private, after the initialisation with what `kalloc`
    returns and in every run of `i8254_send`. -/
def CardOk (mem : Mem 32) (recv send : Pages) : Prop :=
  BuffersOk recv (i8254_init_recv recv.ring recv.pages)
      (writes mem (i8254_init_recv recv.ring recv.pages)) ∧
    BuffersOk send (i8254_init_send send.ring send.pages)
      (writes mem (i8254_init_send send.ring send.pages)) ∧
    ∀ l u, Run Sys.Step (Sys.init mem send) l u → Along SmallPacket l → Along WritesBuffer l

/-- The address of a descriptor past 128 is not set. -/
theorem not_set {clear : List Store} (hclear : ∀ s ∈ clear, ∃ i off n, i < DESC_NUM ∧ 4 ≤ off ∧
    off + n ≤ 16 ∧ s = setField ring i off n 0) {pages : List Word}
    (hpages : pages.length ≤ DESC_NUM / 2) (hi : DESC_NUM / 2 < i) (hlt : i < DESC_NUM) :
    ¬ IsSet (clear ++ buffers ring 0 pages) ring i := by
  intro h
  rw [DESC_NUM_eq] at hpages hi hlt
  obtain ⟨s, hs, hx⟩ := h (field ring i 0) ((within_field (by omega) (by omega)).mpr (by omega))
  rcases List.mem_append.mp hs with hs | hs
  · obtain ⟨j, off, n, hj, hoff, hn, rfl⟩ := hclear s hs
    rw [DESC_NUM_eq] at hj
    have := (within_setField (by omega) (by omega)).mp hx
    omega
  · obtain ⟨j, v, hj, rfl⟩ := buffers_fields hs
    have := (within_setField (by omega) (by omega)).mp hx
    omega

/-- No sequence of pages gives all descriptors a buffer. -/
theorem card_never_ok (mem : Mem 32) (recv send : Pages) : ¬ CardOk mem recv send := by
  rintro ⟨-, hsend, -⟩
  have hlength : (send.pages.take (DESC_NUM / 2)).length ≤ DESC_NUM / 2 := List.length_take_le ..
  have h200 : IsSet (clearSend send.ring ++ buffers send.ring 0 (send.pages.take (DESC_NUM / 2)))
      send.ring 200 := hsend.set 200 (by decide)
  exact not_set (fun s => clearSend_fields) hlength (by decide) (by decide) h200


/-- The 129 pages from `base` on. -/
def Pages.above (base : Word) (haligned : base.toNat % PGSIZE = 0)
    (hkernel : KERNBASE.toNat ≤ base.toNat) (hlt : base.toNat + PGSIZE * 129 < 2 ^ 32) : Pages where
  ring := base
  pages := (List.range (DESC_NUM / 2)).map fun i => base + BitVec.ofNat 32 (PGSIZE * (i + 1))
  length := by rw [List.length_map, List.length_range]
  nodup := by
    refine List.nodup_cons.mpr ⟨fun hmem => ?_, List.nodup_range.map_on fun i hi j hj he => ?_⟩
    · obtain ⟨i, hi, he⟩ := List.mem_map.mp hmem
      have hi := List.mem_range.mp hi
      unfold DESC_NUM at hi
      unfold PGSIZE at he hlt
      bv_omega
    · have hi := List.mem_range.mp hi
      have hj := List.mem_range.mp hj
      unfold DESC_NUM at hi hj
      unfold PGSIZE at he hlt
      bv_omega
  aligned p hp := by
    rcases List.mem_cons.mp hp with rfl | hp
    · exact haligned
    · obtain ⟨i, hi, rfl⟩ := List.mem_map.mp hp
      have hi := List.mem_range.mp hi
      unfold DESC_NUM at hi
      unfold PGSIZE at haligned hlt ⊢
      bv_omega
  kernel p hp := by
    rcases List.mem_cons.mp hp with rfl | hp
    · exact hkernel
    · obtain ⟨i, hi, rfl⟩ := List.mem_map.mp hp
      have hi := List.mem_range.mp hi
      unfold DESC_NUM at hi
      unfold PGSIZE at hlt ⊢
      bv_omega

/-- Pages as a machine that has just started may hand them out. -/
def recvPages : Pages := .above 0x80400000 (by decide) (by decide) (by decide)

def sendPages : Pages := .above 0x80500000 (by decide) (by decide) (by decide)

/-- Descriptor 129 of either ring has no buffer there. -/
theorem consecutive_not_ok : ¬ CardOk (fun _ => 1) recvPages sendPages := by
  rintro ⟨hrecv, -, -⟩
  have h129 : IsSet (clearRecv recvPages.ring ++
      buffers recvPages.ring 0 (recvPages.pages.take (DESC_NUM / 2))) recvPages.ring 129 :=
    hrecv.set 129 (by decide)
  exact not_set (fun s => clearRecv_fields) (List.length_take_le ..) (by decide) (by decide) h129

end Xv6.Net
