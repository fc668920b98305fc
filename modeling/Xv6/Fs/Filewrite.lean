import Xv6.Fs.File
import Xv6.Fs.Cached

/-! @src file.c | name:filewrite | layer:proof

    A write of many bytes is made in chunks. Each is a transaction of its own: when a later one is
    refused, the earlier ones stay. -/

namespace Xv6.Fs
open Xv6.Disk Xv6.Schemes

/-- The entry refers to a regular file without holes. -/
structure Regular {τ : Type} (s : Sys τ) (ip : Ip) : Prop where
  ref : 0 < (s.inode ip).ref
  inode : s.vol.Inode (s.inode ip).inum
  file : (s.ino (s.inode ip).inum).type = T_FILE
  noHoles : s.vol.NoHoles (s.inode ip).inum

/-- The bytes that there are blocks for. -/
def fits (off n : ℕ) : ℕ := min n (MAXFILE * BSIZE - off)

section

variable {τ : Type} {p : τ} {s t : Sys τ} {ip : Ip} {f : Fp} {src : List UInt8} {w : Volume}
  {n : Ip → ℤ} {H : List Ip} {off : ℕ} {K : Finset Pos}

theorem Regular.type_ne (hf : Regular s ip) (ht : Writing t ip)
    (hi : (t.inode ip).inum = (s.inode ip).inum) (hv : t.vol = s.vol) :
    (t.inode ip).d.type ≠ T_DEV := by
  rw [← ht.cache.ino_eq ht.loaded, ← vol_ino, hv, hi, vol_ino, hf.file]
  decide

/-- The offset is in the range of the file sizes. -/
theorem Regular.off_le (hf : Regular s ip)
    (hoff : (s.file f).off ≤ s.vol.size (s.inode ip).inum) :
    (s.file f).off ≤ MAXFILE * BSIZE :=
  hoff.trans hf.noHoles.1

/-- The file is a regular one after a write. -/
theorem Reached.regular (h : Reached p s H w n t) (hf : Regular s ip)
    (hw : Volume.Updated (s.inode ip).inum off src K s.vol w) (hn : n ip = 0) : Regular t ip := by
  have hr : (t.inode ip).ref = (s.inode ip).ref := by rw [h.ref, hn, add_zero]
  have hi : (t.inode ip).inum = (s.inode ip).inum := h.inum ip hf.ref (hr ▸ hf.ref)
  obtain ⟨addrs, size, he⟩ := hw.node
  refine ⟨hr ▸ hf.ref, ?_, ?_, ?_⟩
  · rw [hi, h.vol, hw.inode]
    exact hf.inode
  · rw [hi, ← vol_ino, h.vol, he]
    exact hf.file
  · rw [hi, h.vol]
    exact hw.noHoles

/-- The first `m` bytes have been written, and the rest is refused if there is any. -/
structure Chunks (p : τ) (f : Fp) (ip : Ip) (src : List UInt8) (s : Sys τ) (r : Bool)
    (t : Sys τ) (m : ℕ) (w : Volume) : Prop where
  updated : Volume.Updated (s.inode ip).inum (s.file f).off (src.take m)
    (Pos.span (s.file f).off (fits (s.file f).off src.length)) s.vol w
  reached : Reached p (s.setFile f { s.file f with off := (s.file f).off + m }) [] w 0 t
  le : m ≤ src.length
  done : r = true ↔ (s.file f).off + src.length ≤ MAXFILE * BSIZE
  all : r = true → m = src.length
  refused : m = 0 ↔ src = [] ∨ MAXFILE * BSIZE < (s.file f).off + min src.length maxWrite

/-- Nothing is written. -/
theorem Chunks.zero {r : Bool} (h : Settled s) (hf : Regular s ip) (ht : Reached p s [] s.vol 0 t)
    (hdone : r = true ↔ (s.file f).off + src.length ≤ MAXFILE * BSIZE)
    (hall : r = true → src = [])
    (hnone : src = [] ∨ MAXFILE * BSIZE < (s.file f).off + min src.length maxWrite) :
    Chunks p f ip src s r t 0 s.vol where
  updated := .refl h.sane hf.noHoles _ _
  reached := by
    have hself : s.setFile f { s.file f with off := (s.file f).off + 0 } = s := by
      rw [Nat.add_zero, Sys.setFile]
      dsimp only
      rw [Function.update_eq_self]
    rwa [hself]
  le := Nat.zero_le _
  done := hdone
  all hr := by rw [hall hr, List.length_nil]
  refused := iff_of_true rfl hnone

/-- There is nothing to write. -/
theorem Chunks.nil (h : Settled s) (hl : Locks s p []) (hf : Regular s ip)
    (hoff : (s.file f).off ≤ s.vol.size (s.inode ip).inum) :
    Chunks p f ip [] s true s 0 s.vol :=
  .zero h hf (.refl h hl) (iff_of_true rfl (hf.off_le hoff)) (fun _ => rfl) (.inl rfl)

/-- One chunk has been written, and then the rest. -/
theorem Chunks.cons {u : Sys τ} {r : Bool} {m : ℕ} {w' : Volume} (hf : Regular s ip)
    (hoff : (s.file f).off ≤ s.vol.size (s.inode ip).inum) (hne : src ≠ [])
    (hmax : (s.file f).off + (src.take maxWrite).length ≤ MAXFILE * BSIZE)
    (hw : Volume.Updated (s.inode ip).inum (s.file f).off (src.take maxWrite)
      (Pos.span (s.file f).off (src.take maxWrite).length) s.vol w)
    (ht : Reached p (s.setFile f { s.file f with
      off := (s.file f).off + (src.take maxWrite).length }) [] w 0 t)
    (hc : Chunks p f ip (src.drop maxWrite) t r u m w') :
    Chunks p f ip src s r u ((src.take maxWrite).length + m) w' := by
  have hfile : t.file f = { s.file f with
      off := (s.file f).off + (src.take maxWrite).length } := ht.file_eq
  have hoff' : (t.file f).off = (s.file f).off + (src.take maxWrite).length := by rw [hfile]
  have hlen : (src.take maxWrite).length = min src.length maxWrite := by
    rw [List.length_take, Nat.min_comm]
  have hdrop : (src.drop maxWrite).length = src.length - maxWrite := List.length_drop
  have hpos : 0 < src.length := List.length_pos_iff.mpr hne
  have hmaxw : maxWrite = 1536 := rfl
  have hB : MAXFILE * BSIZE = 71680 := rfl
  have hle := hc.le
  have htake : src.take maxWrite ++ (src.drop maxWrite).take m =
      src.take ((src.take maxWrite).length + m) := by
    rcases Nat.le_total src.length maxWrite with hshort | hlong
    · rw [List.drop_of_length_le hshort, List.take_nil, List.append_nil,
        List.take_of_length_le hshort, List.take_of_length_le (Nat.le_add_right _ _)]
    · rw [hlen, min_eq_right hlong, List.take_add]
  have hr : (t.inode ip).ref = (s.inode ip).ref := (ht.ref ip).trans (add_zero _)
  have hinum : (t.inode ip).inum = (s.inode ip).inum := ht.inum ip hf.ref (hr ▸ hf.ref)
  refine ⟨?_, ?_, by omega, ?_, ?_, ?_⟩
  · have hfit : (src.take maxWrite).length ≤ fits (s.file f).off src.length := by
      rw [fits]
      omega
    have hfits : fits (t.file f).off (src.drop maxWrite).length =
        fits (s.file f).off src.length - (src.take maxWrite).length := by
      rw [fits, fits, hoff', hdrop]
      omega
    have hu := hc.updated
    rw [hfits, hoff', ht.vol, hinum] at hu
    have hall := (hw.mono (Pos.span_subset_span' hfit)).trans
      (hu.mono (Pos.span_subset_span hfit)) hoff
    rwa [htake] at hall
  · have h2 := (ht.setFile f { t.file f with off := (t.file f).off + m }).trans hc.reached le_rfl
    have hself : (s.setFile f { s.file f with
        off := (s.file f).off + (src.take maxWrite).length }).setFile f
          { t.file f with off := (t.file f).off + m } =
        s.setFile f { s.file f with off := (s.file f).off + ((src.take maxWrite).length + m) } := by
      rw [hfile, Sys.setFile, Sys.setFile]
      dsimp only
      rw [Function.update_idem, Nat.add_assoc]
      rfl
    rwa [hself, add_zero] at h2
  · rw [hc.done, hoff', hdrop]
    omega
  · intro hr
    rw [hc.all hr]
    omega
  · refine iff_of_false (by omega) ?_
    rintro (he | hgt)
    · exact hne he
    · omega

/-- What is returned tells what was done: everything, or nothing. -/
structure Reports (s t : Sys τ) (f : Fp) (src : List UInt8) (r : Option ℕ) : Prop where
  done : ∀ n, r = some n → n = src.length ∧
    t.vol.content (s.inode (s.file f).ip).inum =
      splice (s.vol.content (s.inode (s.file f).ip).inum) (s.file f).off src ∧
    t.vol.size (s.inode (s.file f).ip).inum =
      max (s.vol.size (s.inode (s.file f).ip).inum) ((s.file f).off + n) ∧
    (t.file f).off = (s.file f).off + n
  failed : r = none →
    t.vol.content (s.inode (s.file f).ip).inum = s.vol.content (s.inode (s.file f).ip).inum ∧
    t.vol.size (s.inode (s.file f).ip).inum = s.vol.size (s.inode (s.file f).ip).inum ∧
    (t.file f).off = (s.file f).off

theorem Chunks.reports {m : ℕ} {done : Bool} (hc : Chunks p f (s.file f).ip src s done t m w)
    (hoff : (s.file f).off ≤ s.vol.size (s.inode (s.file f).ip).inum)
    (hmax : s.vol.size (s.inode (s.file f).ip).inum ≤ MAXFILE * BSIZE) :
    Reports s t f src (if done then some src.length else none) ↔
      (s.file f).off + src.length ≤ MAXFILE * BSIZE ∨
        MAXFILE * BSIZE < (s.file f).off + min src.length maxWrite := by
  have hfile : (t.file f).off = (s.file f).off + m := by rw [hc.reached.file_eq]
  have hvol := hc.reached.vol
  cases done with
  | true =>
    have hm := hc.all rfl
    have hu := hc.updated
    rw [hm, List.take_length] at hu
    refine iff_of_true ⟨?_, fun he => by cases he⟩ (.inl (hc.done.mp rfl))
    intro n hn
    obtain rfl : src.length = n := Option.some.inj hn
    refine ⟨rfl, ?_, ?_, by rw [hfile, hm]⟩
    · rw [hvol, hu.content]
    · rw [hvol, hu.size hoff]
  | false =>
    have hnot : ¬ (s.file f).off + src.length ≤ MAXFILE * BSIZE := fun hle =>
      Bool.false_ne_true (hc.done.mpr hle)
    rw [or_iff_right hnot]
    have hnone := hc.refused
    constructor
    · intro hr
      obtain ⟨-, -, hkeep⟩ := hr.failed rfl
      have hm : m = 0 := by omega
      refine (hnone.mp hm).resolve_left fun hn => hnot ?_
      rw [hn, List.length_nil, Nat.add_zero]
      exact hoff.trans hmax
    · intro hgt
      have hm := hnone.mpr (.inr hgt)
      subst hm
      have hu := hc.updated
      rw [List.take_zero] at hu
      refine ⟨fun n hn => (by cases hn), fun _ => ⟨?_, ?_, by rw [hfile, Nat.add_zero]⟩⟩
      · rw [hvol, hu.content, splice, List.append_nil, List.length_nil, Nat.add_zero,
          List.take_append_drop]
      · rw [hvol, hu.size hoff, List.length_nil, Nat.add_zero, max_eq_left hoff]

end

section

variable {τ α : Type} [DecidableEq τ] {p : τ} {x : Option (List UInt8)} {E : End → Prop}
  {s t : Sys τ} {ip : Ip} {f : Fp} {chunk src : List UInt8} {w : Volume}

/-- A chunk is written under the lock, in a transaction, and the offset is advanced. -/
theorem writeChunk_spec {Q : Option ℕ → Volume → Prop} (h : Settled s) (hl : Locks s p [])
    (hf : Regular s ip) (hoff : (s.file f).off < 2 ^ 32)
    (hw : ∀ t, Settled t → Locks t p [ip] → Writing t ip → (t.inode ip).inum = (s.inode ip).inum →
      t.vol = s.vol → Wp (Sys.act p x) E (writei ip chunk (s.file f).off) t fun r u =>
        ∃ w, Q r w ∧ Reached p t [ip] w 0 u) :
    Wp (Sys.act p x) E (writeChunk f ip chunk) s fun r t => ∃ w, Q r w ∧
      Reached p (s.setFile f { s.file f with off := ((s.file f).off + r.getD 0) % 2 ^ 32 }) [] w 0
        t := by
  have h0 := h.files s.file s.ofile s.cwd (s.outstanding + 1)
  refine Wp.perform_bind rfl (Wp.bind (ilock_spec (H := []) h0 hl (by simp) hf.ref hf.inode) ?_)
  rintro _ t ⟨ht, hload⟩
  have hinum : (t.inode ip).inum = (s.inode ip).inum := ht.inum ip hf.ref hload.ref
  have hwr : Writing t ip := by
    refine ht.settled.writing hload ?_ ?_
    · rw [ht.vol, hinum]
      exact hf.inode
    · rw [ht.apart.outstanding]
      exact Nat.le_add_left _ _
  refine Wp.perform_bind rfl ?_
  rw [ht.apart.file]
  refine Wp.bind (hw t ht.settled ht.locks hwr hinum ht.vol) ?_
  rintro r u ⟨w, hq, hu⟩
  have h1 := ht.trans hu le_rfl
  rw [add_zero] at h1
  have hend : Wp (Sys.act p x) E (do
      iunlock ip
      endOp
      return r) (u.setFile f { s.file f with off := ((s.file f).off + r.getD 0) % 2 ^ 32 })
        fun r t => ∃ w, Q r w ∧ Reached p
          (s.setFile f { s.file f with off := ((s.file f).off + r.getD 0) % 2 ^ 32 }) [] w 0 t := by
    have h2 := h1.setFile f { s.file f with off := ((s.file f).off + r.getD 0) % 2 ^ 32 }
    refine Wp.bind (iunlock_spec h2.settled h2.locks (by simp) ?_) ?_
    · exact (hu.loaded hload le_rfl).ref
    rintro _ t' ht'
    have h3 := h2.trans ht' le_rfl
    rw [add_zero, h2.vol] at h3
    exact Wp.perform_bind rfl (Wp.pure ⟨w, hq, h3.endOp (s := s.setFile f _)⟩)
  have huf : u.file f = s.file f := by rw [h1.apart.file]
  split_ifs with hr
  · refine Wp.perform_bind rfl ?_
    rw [huf]
    exact hend
  · have hz : r.getD 0 = 0 := by omega
    have hself : u.setFile f { s.file f with off := ((s.file f).off + r.getD 0) % 2 ^ 32 } = u := by
      rw [hz, Nat.add_zero, Nat.mod_eq_of_lt hoff, Sys.setFile, ← huf]
      dsimp only
      rw [Function.update_eq_self]
    rwa [hself] at hend

theorem writeChunk_ok (h : Settled s) (hl : Locks s p []) (hf : Regular s ip)
    (hoff : (s.file f).off ≤ s.vol.size (s.inode ip).inum)
    (hmax : (s.file f).off + chunk.length ≤ MAXFILE * BSIZE)
    (hroom : Room E s.vol (s.inode ip).inum (Pos.span (s.file f).off chunk.length)) :
    Wp (Sys.act p x) E (writeChunk f ip chunk) s fun r t => r = some chunk.length ∧ ∃ w,
      Volume.Updated (s.inode ip).inum (s.file f).off chunk
        (Pos.span (s.file f).off chunk.length) s.vol w ∧
      Reached p (s.setFile f { s.file f with off := (s.file f).off + chunk.length }) [] w 0 t := by
  have hlt : (s.file f).off + chunk.length < 2 ^ 32 := hmax.trans_lt (by decide)
  refine (writeChunk_spec (Q := fun r w => r = some chunk.length ∧
    Volume.Updated (s.inode ip).inum (s.file f).off chunk
      (Pos.span (s.file f).off chunk.length) s.vol w) h hl hf (by omega)
      fun t ht hlt hwr hi hv => ?_).imp ?_
  · have hw := writei_reached (p := p) (x := x) (E := E) ht hlt hwr (hf.type_ne hwr hi hv)
      (by rw [hi, hv]; exact hf.noHoles) (by rw [hi, hv]; exact hoff) hmax
      (by rw [hi, hv]; exact hroom)
    rw [hi, hv] at hw
    refine hw.imp ?_
    rintro r u ⟨rfl, w, hu, hreach⟩
    exact ⟨w, ⟨rfl, hu⟩, hreach⟩
  · rintro r t ⟨w, ⟨rfl, hu⟩, hreach⟩
    rw [Option.getD_some, Nat.mod_eq_of_lt hlt] at hreach
    exact ⟨rfl, w, hu, hreach⟩

theorem writeChunk_refused (h : Settled s) (hl : Locks s p []) (hf : Regular s ip)
    (hoff : (s.file f).off ≤ s.vol.size (s.inode ip).inum) (hlen : chunk.length < 2 ^ 32)
    (hmax : MAXFILE * BSIZE < (s.file f).off + chunk.length) :
    Wp (Sys.act p x) E (writeChunk f ip chunk) s fun r t => r = none ∧
      Reached p s [] s.vol 0 t := by
  have hlt : (s.file f).off < 2 ^ 32 := (hf.off_le hoff).trans_lt (by decide)
  refine (writeChunk_spec (Q := fun r w => r = none ∧ w = s.vol) h hl hf hlt
      fun t ht hlt' hwr hi hv => ?_).imp ?_
  · refine (writei_none hwr.toReady (hf.type_ne hwr hi hv) hlt hlen (.inr (.inr hmax))).imp ?_
    rintro r u ⟨rfl, rfl⟩
    exact ⟨s.vol, ⟨rfl, rfl⟩, hv ▸ .refl ht hlt'⟩
  · rintro r t ⟨w, ⟨rfl, rfl⟩, hreach⟩
    have hself : s.setFile f { s.file f with
        off := ((s.file f).off + (none : Option ℕ).getD 0) % 2 ^ 32 } = s := by
      rw [Option.getD_none, Nat.add_zero, Nat.mod_eq_of_lt hlt, Sys.setFile]
      dsimp only
      rw [Function.update_eq_self]
    rw [hself] at hreach
    exact ⟨rfl, hreach⟩

/-- The loop writes whole chunks, up to the first one that is refused. -/
theorem filewriteLoop_spec {fuel : ℕ} (h : Settled s) (hl : Locks s p []) (hf : Regular s ip)
    (hfuel : src.length ≤ fuel) (hoff : (s.file f).off ≤ s.vol.size (s.inode ip).inum)
    (hroom : Room E s.vol (s.inode ip).inum
      (Pos.span (s.file f).off (fits (s.file f).off src.length))) :
    Wp (Sys.act p x) E (filewriteLoop f ip fuel src) s fun r t =>
      ∃ m w, Chunks p f ip src s r t m w := by
  have hmaxw : maxWrite = 1536 := rfl
  have hB : MAXFILE * BSIZE = 71680 := rfl
  induction fuel generalizing s src with
  | zero =>
    obtain rfl : src = [] := List.length_eq_zero_iff.mp (Nat.le_zero.mp hfuel)
    exact Wp.pure ⟨0, s.vol, .nil h hl hf hoff⟩
  | succ fuel ih =>
    rw [filewriteLoop]
    split_ifs with hn
    · subst hn
      exact Wp.pure ⟨0, s.vol, .nil h hl hf hoff⟩
    · have hlen : (src.take maxWrite).length = min src.length maxWrite := by
        rw [List.length_take, Nat.min_comm]
      have hne : 0 < src.length := List.length_pos_iff.mpr hn
      by_cases hmax : (s.file f).off + (src.take maxWrite).length ≤ MAXFILE * BSIZE
      · have hfit : (src.take maxWrite).length ≤ fits (s.file f).off src.length := by
          rw [fits]
          omega
        have hspan : Pos.span ((s.file f).off + (src.take maxWrite).length)
            (fits (s.file f).off src.length - (src.take maxWrite).length) ⊆
            Pos.span (s.file f).off (fits (s.file f).off src.length) :=
          Pos.span_subset_span hfit
        refine Wp.bind (writeChunk_ok h hl hf hoff hmax (hroom.mono ?_)) ?_
        · exact Pos.span_subset_span' hfit
        rintro r t ⟨rfl, w, hw, ht⟩
        dsimp only
        rw [if_neg (not_not.mpr rfl)]
        have hoff' : (t.file f).off = (s.file f).off + (src.take maxWrite).length := by
          rw [ht.file_eq]
        have hft : Regular t ip :=
          ht.regular (s := s.setFile f _) ⟨hf.ref, hf.inode, hf.file, hf.noHoles⟩ hw rfl
        have hinum : (t.inode ip).inum = (s.inode ip).inum := ht.inum ip hf.ref hft.ref
        have hdrop : (src.drop maxWrite).length = src.length - maxWrite := List.length_drop
        have hfits : fits (t.file f).off (src.drop maxWrite).length =
            fits (s.file f).off src.length - (src.take maxWrite).length := by
          rw [fits, fits, hoff', hdrop]
          omega
        have hrest := @ih t (src.drop maxWrite) ht.settled ht.locks hft (by omega)
        rw [hfits, hoff', hinum, ht.vol] at hrest
        have hsize := hw.size hoff
        refine (hrest (by omega) ((hroom.updated hw (Pos.span_subset_span' hfit)).mono hspan)).imp
          ?_
        rintro r u ⟨m, w', hc⟩
        exact ⟨_, w', .cons hf hoff hn hmax hw ht hc⟩
      · refine Wp.bind (writeChunk_refused h hl hf hoff (by omega) (not_le.mp hmax)) ?_
        rintro r t ⟨rfl, ht⟩
        exact Wp.pure ⟨0, s.vol, .zero h hf ht (by simp; omega) (by simp) (.inr (by omega))⟩

/-- What `filewrite` returns, and how far it has come. -/
theorem filewrite_spec (h : Settled s) (hl : Locks s p []) (htype : (s.file f).type = .FD_INODE)
    (hwr : (s.file f).writable = true) (hf : Regular s (s.file f).ip)
    (hoff : (s.file f).off ≤ s.vol.size (s.inode (s.file f).ip).inum)
    (hroom : Room E s.vol (s.inode (s.file f).ip).inum
      (Pos.span (s.file f).off (fits (s.file f).off src.length))) :
    Wp (Sys.act p x) E (filewrite f src) s fun r t => ∃ done m w,
      r = (if done then some src.length else none) ∧
      Chunks p f (s.file f).ip src s done t m w := by
  refine Wp.perform_bind rfl ?_
  rw [hwr, if_neg (by decide), htype]
  refine Wp.bind (filewriteLoop_spec h hl hf le_rfl hoff hroom) ?_
  rintro done t ⟨m, w, hc⟩
  exact Wp.pure ⟨done, m, w, rfl, hc⟩

/-- `filewrite` reports what it did when the file cannot be written, when all of the bytes fit, and
    when the first chunk does not. -/
theorem filewrite_reports (h : Settled s) (hl : Locks s p [])
    (htype : (s.file f).type = .FD_INODE) (hf : Regular s (s.file f).ip)
    (hoff : (s.file f).off ≤ s.vol.size (s.inode (s.file f).ip).inum)
    (hneed : s.vol.need (s.inode (s.file f).ip).inum
      (Pos.span (s.file f).off (fits (s.file f).off src.length)) ≤ s.vol.freeBlocks.card) :
    ∃ r t, (filewrite f src).run (Sys.act p x) s = .ok (r, t) ∧
      (Reports s t f src r ↔ (s.file f).writable = false ∨
        (s.file f).off + src.length ≤ MAXFILE * BSIZE ∨
        MAXFILE * BSIZE < (s.file f).off + min src.length maxWrite) := by
  cases hwr : (s.file f).writable with
  | false =>
    refine ⟨none, s, ?_, ?_⟩
    · rw [filewrite, perform, run_bind, Prog.perform, Prog.run, Sys.act]
      simp only [Except.bind, Prog.run, hwr, if_true]
      rfl
    · exact iff_of_true ⟨fun n hn => (by cases hn), fun _ => ⟨rfl, rfl, rfl⟩⟩ (.inl rfl)
  | true =>
    obtain ⟨r, t, hrun, done, m, w, rfl, hc⟩ :=
      (filewrite_spec (p := p) (x := x) (E := fun _ => False) h hl htype hwr hf hoff
        (.inl hneed)).total
    refine ⟨_, t, hrun, ?_⟩
    simp only [hc.reports hoff hf.noHoles.1, Bool.true_eq_false, false_or]

end

/-! ### A file that grows too large -/

/-- As many positions as a file has blocks, and the one of the indirect block. -/
theorem Pos.card_span_le {off n : ℕ} (h : off + n ≤ MAXFILE * BSIZE) :
    (Pos.span off n).card ≤ 141 := by
  have hsub : Pos.span off n ⊆ Finset.univ.image Pos.addr ∪ (Finset.range 128).image Pos.entry := by
    intro k hk
    rw [Pos.span] at hk
    split_ifs at hk with hn
    · exact absurd hk (Finset.notMem_empty k)
    obtain ⟨bn, hbn, hkb⟩ := Finset.mem_biUnion.mp hk
    have hle : bn ≤ (off + n - 1) / BSIZE := Nat.le_of_lt_succ (Finset.mem_Ico.mp hbn).2
    have hlt : bn < 140 := hle.trans_lt (div_lt_MAXFILE (by omega))
    rw [Pos.path] at hkb
    split_ifs at hkb with hdir
    · rw [Finset.mem_singleton.mp hkb, Pos.ofBn, if_pos hdir]
      exact Finset.mem_union_left _ (Finset.mem_image_of_mem _ (Finset.mem_univ _))
    · rcases Finset.mem_insert.mp hkb with rfl | hkb
      · exact Finset.mem_union_left _ (Finset.mem_image_of_mem _ (Finset.mem_univ _))
      · rw [Finset.mem_singleton.mp hkb, Pos.ofBn, if_neg hdir]
        refine Finset.mem_union_right _ (Finset.mem_image_of_mem _ (Finset.mem_range.mpr ?_))
        change bn - 12 < 128
        omega
  have haddr : (Finset.univ.image Pos.addr).card ≤ 13 := Finset.card_image_le
  have hentry : ((Finset.range 128).image Pos.entry).card ≤ 128 :=
    Finset.card_image_le.trans (Finset.card_range 128).le
  have hunion := Finset.card_union_le (Finset.univ.image Pos.addr)
    ((Finset.range 128).image Pos.entry)
  exact (Finset.card_le_card hsub).trans (by omega)

/-- An empty file that is open for writing. -/
def Sys.opened : Sys Unit :=
  (Sys.single { Dinode.zero with type := T_FILE }).setFile 0 ⟨.FD_INODE, 1, true, true, 0, 0⟩

theorem opened_settled : Settled Sys.opened := (single_settled (by decide) fun _ => rfl).files ..

theorem opened_regular : Regular Sys.opened 0 where
  ref := Int.one_pos
  inode := (single_writing (by decide) fun _ => rfl).inode
  file := congrArg Dinode.type single_ino
  noHoles := single_noHoles rfl

theorem opened_need (n : ℕ) : Sys.opened.vol.need 1 (Pos.span 0 (fits 0 n)) ≤
    Sys.opened.vol.freeBlocks.card := by
  have hcard : Sys.opened.vol.freeBlocks.card = 196 := single_freeBlocks
  have hspan : (Pos.span 0 (fits 0 n)).card ≤ 141 :=
    Pos.card_span_le ((Nat.zero_add _).le.trans (Nat.min_le_right _ _))
  have hneed := Finset.card_filter_le (Pos.span 0 (fits 0 n)) fun k => Sys.opened.vol.ref 1 k = 0
  exact hneed.trans (by omega)

/-- The file takes no byte more than `MAXFILE` blocks, and what comes before that one is written. -/
theorem opened_too_long {src : List UInt8} (hlen : src.length = 71681) : ∃ t,
    (filewrite 0 src).run (Sys.act () none) Sys.opened = .ok (none, t) ∧
      ¬ Reports Sys.opened t 0 src none := by
  obtain ⟨r, t, hrun, done, m, w, rfl, hc⟩ :=
    (filewrite_spec (p := ()) (x := none) (E := fun _ => False) (f := 0) opened_settled
      (fun _ => rfl) rfl rfl opened_regular (Nat.zero_le _) (.inl (opened_need src.length))).total
  have hiff := hc.reports (Nat.zero_le _) (opened_regular.noHoles.1)
  have hoff : (Sys.opened.file 0).off = 0 := rfl
  have hmaxw : maxWrite = 1536 := rfl
  have hB : MAXFILE * BSIZE = 71680 := rfl
  have hdone : done = false := by
    refine Bool.eq_false_iff.mpr fun hd => ?_
    have hfit := hc.done.mp hd
    omega
  rw [hdone] at hrun hiff
  refine ⟨t, hrun, fun hr => ?_⟩
  have hcond := hiff.mp hr
  omega

theorem filewrite_too_long : ∃ t,
    (filewrite 0 (List.replicate 71681 0)).run (Sys.act () none) Sys.opened = .ok (none, t) ∧
      ¬ Reports Sys.opened t 0 (List.replicate 71681 0) none :=
  opened_too_long List.length_replicate

theorem filewrite_reports_short : ∃ r t,
    (filewrite 0 [7]).run (Sys.act () none) Sys.opened = .ok (r, t) ∧
      (Reports Sys.opened t 0 [7] r ↔ true = false ∨ 0 + [(7 : UInt8)].length ≤ MAXFILE * BSIZE ∨
        MAXFILE * BSIZE < 0 + min [(7 : UInt8)].length maxWrite) :=
  filewrite_reports opened_settled (fun _ => rfl) rfl opened_regular (Nat.zero_le _) (opened_need 1)

end Xv6.Fs
