import Mathlib.Algebra.BigOperators.Group.Finset.Basic
import Mathlib.Data.Fintype.Basic
import Xv6.Fs.Shared
import Xv6.Schemes.Run

/-! @src file.c fs.c | name:Processes that share an open file | layer:model,proof

    Any number of processes write to one open file, and their operations come in any order. A process
    that has the lock of the inode comes to what it would have come to alone, so that the chunks are
    written one after the other, each where the one before it has ended. -/

namespace Xv6.Fs.Append
open Xv6.Disk Xv6.Schemes

/-- A process that writes some buffers to a file. -/
def writes (f : Fp) : List (List UInt8) → Code Unit
  | [] => return ()
  | src :: l => do
    let _ ← filewrite f src
    writes f l

/-- The pieces of a buffer that are written in one transaction each. -/
def chunks (src : List UInt8) : List (List UInt8) :=
  if src = [] then [] else src.take maxWrite :: chunks (src.drop maxWrite)
termination_by src.length
decreasing_by
  have hpos : 0 < src.length := List.length_pos_iff.mpr ‹_›
  have hmaxw : maxWrite = 1536 := rfl
  rw [List.length_drop]
  omega

/-- What has been written, and by whom. -/
abbrev History (τ : Type) : Type := List (τ × List UInt8)

/-- The bytes that have been written. -/
def History.bytes {τ : Type} (h : History τ) : List UInt8 := (h.map Prod.snd).flatten

/-- What a process has written. -/
def History.of {τ : Type} [DecidableEq τ] (h : History τ) (p : τ) : List (List UInt8) :=
  (h.filter fun e => e.1 = p).map Prod.snd

/-- A regular file is open for writing, and it has room for `n` bytes. -/
structure Opened {τ : Type} (b : Sys τ) (f : Fp) (n : ℕ) : Prop where
  settled : Settled b
  free : ∀ ip, (b.inode ip).lock = none
  type : (b.file f).type = .FD_INODE
  writable : (b.file f).writable = true
  regular : Regular b (b.file f).ip
  off : (b.file f).off ≤ b.vol.size (b.inode (b.file f).ip).inum
  max : (b.file f).off + n ≤ MAXFILE * BSIZE
  room : b.vol.need (b.inode (b.file f).ip).inum (Pos.span (b.file f).off n) ≤ b.vol.freeBlocks.card

/-- No process has the lock, and the history has been written to the file `b` had. -/
structure Between {τ : Type} (b : Sys τ) (f : Fp) (n : ℕ) (hist : History τ) (s : Sys τ) : Prop where
  settled : Settled s
  free : ∀ ip, (s.inode ip).lock = none
  regular : Regular s (b.file f).ip
  inum : (s.inode (b.file f).ip).inum = (b.inode (b.file f).ip).inum
  updated : Volume.Updated (b.inode (b.file f).ip).inum (b.file f).off hist.bytes
    (Pos.span (b.file f).off n) b.vol s.vol
  file : s.file f = { b.file f with off := (b.file f).off + hist.bytes.length }

section

variable {τ : Type} {b s t : Sys τ} {f : Fp} {n k : ℕ} {hist : History τ} {p : τ} {e : List UInt8}

theorem flatten_chunks (src : List UInt8) : (chunks src).flatten = src := by
  induction src using chunks.induct with
  | case1 => rw [chunks, if_pos rfl, List.flatten_nil]
  | case2 src hne ih => rw [chunks, if_neg hne, List.flatten_cons, ih, List.take_append_drop]

theorem flatten_flatMap_chunks (bufs : List (List UInt8)) :
    (bufs.flatMap chunks).flatten = bufs.flatten := by
  induction bufs with
  | nil => rfl
  | cons src bufs ih => rw [List.flatMap_cons, List.flatten_append, flatten_chunks, ih, List.flatten_cons]

theorem History.bytes_append (hist : History τ) (p : τ) (e : List UInt8) :
    (hist ++ [(p, e)]).bytes = hist.bytes ++ e := by
  simp [History.bytes]

theorem Opened.between (h : Opened b f n) : Between b f n [] b where
  settled := h.settled
  free := h.free
  regular := h.regular
  inum := rfl
  updated := .refl h.settled.sane h.regular.noHoles _ _
  file := rfl

/-- It does not matter how many transactions there are. -/
theorem Between.withOps (h : Between b f n hist s) (k : ℕ) : Between b f n hist (s.withOps k) where
  settled := h.settled.files s.file s.ofile s.cwd k
  free := h.free
  regular := ⟨h.regular.ref, h.regular.inode, h.regular.file, h.regular.noHoles⟩
  inum := h.inum
  updated := h.updated
  file := h.file

variable [DecidableEq τ] {x : Option (List UInt8)}

/-- A process that runs alone writes its chunk at the end of the history. -/
theorem Between.write (hb : Opened b f n) (h : Between b f n hist s)
    (hlen : hist.bytes.length + e.length ≤ n) : ∃ t,
    (writeChunk f (b.file f).ip e).run (Sys.act p x) s = .ok (some e.length, t) ∧
      Between b f n (hist ++ [(p, e)]) t := by
  have hoff : (s.file f).off = (b.file f).off + hist.bytes.length := by rw [h.file]
  have hsize := h.updated.size hb.off
  have hspan : Pos.span ((b.file f).off + hist.bytes.length) e.length ⊆ Pos.span (b.file f).off n := by
    refine (Pos.span_subset_span' (n := n - hist.bytes.length) (by omega)).trans ?_
    exact Pos.span_subset_span (by omega)
  have hroom : Room (fun _ => False) s.vol (s.inode (b.file f).ip).inum
      (Pos.span (s.file f).off e.length) := by
    rw [h.inum, hoff]
    have hr : Room (fun _ => False) b.vol (b.inode (b.file f).ip).inum
      (Pos.span (b.file f).off n) := .inl hb.room
    exact (hr.updated h.updated subset_rfl).mono hspan
  have hmax := hb.max
  have hfits : (s.file f).off + e.length ≤ MAXFILE * BSIZE := by omega
  have hwithin : (s.file f).off ≤ s.vol.size (s.inode (b.file f).ip).inum := by
    rw [h.inum, hoff, hsize]
    omega
  obtain ⟨r, t, hrun, rfl, w, hw, ht⟩ :=
    (writeChunk_ok (p := p) (x := x) h.settled h.free h.regular hwithin hfits hroom).total
  have hreg : Regular t (b.file f).ip :=
    ht.regular (s := s.setFile f _)
      ⟨h.regular.ref, h.regular.inode, h.regular.file, h.regular.noHoles⟩ hw rfl
  refine ⟨t, hrun, ht.settled, fun ip => (ht.locks ip).trans (if_neg List.not_mem_nil), hreg, ?_, ?_, ?_⟩
  · exact (ht.inum _ h.regular.ref hreg.ref).trans h.inum
  · rw [History.bytes_append, ht.vol]
    rw [h.inum, hoff] at hw
    exact h.updated.trans (hw.mono hspan) hb.off
  · rw [ht.file_eq, hoff, h.file, History.bytes_append, List.length_append, Nat.add_assoc]

/-! ### One process -/

/-- Where a process is: outside of the section under the lock, in a transaction or not, or in it, in
    the state that it would have come to alone. -/
inductive Place (τ : Type) where
  | out (busy : Bool)
  | sect (hist : History τ) (s : Sys τ)

/-- The program of process `p` still writes the chunks, each under the lock of the inode. A section
    runs alone to its end, and its chunk is the last of the history then. -/
inductive Follows (x : Option (List UInt8)) (b : Sys τ) (f : Fp) (n : ℕ) (p : τ) :
    Place τ → List (List UInt8) → Code Unit → Prop
  | ret : Follows x b f n p (.out false) [] (.ret ())
  | file {k l} (h : ∀ g : File, g.type = .FD_INODE → g.writable = true → g.ip = (b.file f).ip →
      Follows x b f n p (.out false) l (k g)) : Follows x b f n p (.out false) l (.op (.file f) k)
  | beginOp {k l} (h : Follows x b f n p (.out true) l (k ())) :
      Follows x b f n p (.out false) l (.op .beginOp k)
  | ref {k l} (h : ∀ r : ℤ, 1 ≤ r → Follows x b f n p (.out true) l (k r)) :
      Follows x b f n p (.out true) l (.op (.ref (b.file f).ip) k)
  | acquire {k l e} (h : ∀ hist s, Between b f n hist s → hist.bytes.length + e.length ≤ n →
      Follows x b f n p
        (.sect (hist ++ [(p, e)]) ((s.withOps 1).setLock (b.file f).ip (some p))) l (k ())) :
      Follows x b f n p (.out true) (e :: l) (.op (.acquiresleep (b.file f).ip) k)
  | inside {hist s t o a k l} (ho : Inside o) (h : Sys.act p x o s = .ok (a, t))
      (hk : Follows x b f n p (.sect hist t) l (k a)) : Follows x b f n p (.sect hist s) l (.op o k)
  | release {hist s k l} (h : Between b f n hist (s.setLock (b.file f).ip none))
      (hk : Follows x b f n p (.out true) l (k ())) :
      Follows x b f n p (.sect hist s) l (.op (.releasesleep (b.file f).ip) k)
  | endOp {k l} (h : Follows x b f n p (.out false) l (k ())) :
      Follows x b f n p (.out true) l (.op .endOp k)

variable {α : Type} {c : Code α} {K : α → Code Unit} {a : α} {l : List (List UInt8)}
  {src : List UInt8}

/-- A part of the section. -/
theorem Follows.passes (h : Passes (Sys.act p x) Inside s c a t)
    (hk : Follows x b f n p (.sect hist t) l (K a)) :
    Follows x b f n p (.sect hist s) l (c >>= K) := by
  rw [Prog.bind_def]
  induction h with
  | ret a s => exact hk
  | op ho h _ ih => exact .inside ho h (ih hk)

/-- What `ilock` does when it has the lock. -/
def ilocked (ip : Ip) : Code Unit := do
  let c ← perform (.get ip)
  if c.valid then return ()
  else
    let bp ← bread (.inode c.inum)
    perform (.modify ip fun _ => getDinode bp.2 (c.inum % IPB))
    brelse bp.1
    perform (.setValid ip true)
    if (getDinode bp.2 (c.inum % IPB)).type = 0 then panic "ilock: no type" else return ()

theorem only_ilocked (ip : Ip) : (ilocked ip).Only Inside := by
  refine .perform_bind trivial fun c => ?_
  split_ifs
  · exact .pure _
  · refine .bind (only_bread _) fun bp => .perform_bind trivial fun _ =>
      .bind (only_brelse _) fun _ => .perform_bind trivial fun _ => ?_
    split_ifs
    · exact only_panic _
    · exact .pure _

theorem ilock_eq (ip : Ip) : ilock ip = (do
    let ref ← perform (.ref ip)
    if ref < 1 then panic "ilock"
    else
      perform (.acquiresleep ip)
      ilocked ip) := rfl

/-- The section gives up the lock and ends the transaction. -/
theorem follows_iunlock {r : Option ℕ} {K : Option ℕ → Code Unit} {b' : Option ℕ}
    (hrun : (do
      iunlock (b.file f).ip
      endOp
      return r : Code (Option ℕ)).run (Sys.act p x) s = .ok (b', t))
    (ht : Between b f n hist t) (hk : Follows x b f n p (.out false) l (K b')) :
    Follows x b f n p (.sect hist s) l ((do
      iunlock (b.file f).ip
      endOp
      return r) >>= K) := by
  rw [Prog.bind_assoc]
  obtain ⟨_, s', hun, hend⟩ := run_bind_ok hrun
  obtain ⟨hold, s₁, hh, hun⟩ := run_bind_ok (m := perform (.holdingsleep (b.file f).ip)) hun
  cases hh
  obtain ⟨ref, s₂, hr, hun⟩ := run_bind_ok (m := perform (.ref (b.file f).ip)) hun
  cases hr
  dsimp only at hun
  split_ifs at hun with hbad
  · cases hun
  · cases hun
    cases hend
    have hrel : Between b f n hist (s.setLock (b.file f).ip none) := ht.withOps s.outstanding
    refine .inside (o := .holdingsleep _) trivial rfl (.inside (o := .ref _) trivial rfl ?_)
    change Follows x b f n p (.sect hist s) l ((if decide ((s.inode (b.file f).ip).lock = some p) = false ∨
      (s.inode (b.file f).ip).ref < 1 then panic "iunlock" else perform (.releasesleep (b.file f).ip)) >>=
        fun _ => endOp >>= fun _ => K r)
    rw [if_neg hbad]
    exact .release hrel (.endOp hk)

/-- What `filewrite` does with a chunk when it has the lock. -/
def locked (f : Fp) (ip : Ip) (chunk : List UInt8) : Code (Option ℕ) := do
  let g ← perform (.file f)
  let r ← writei ip chunk g.off
  if 0 < r.getD 0 then perform (.setOff f ((g.off + r.getD 0) % 2 ^ 32))
  iunlock ip
  endOp
  return r

theorem writeChunk_eq (f : Fp) (ip : Ip) (chunk : List UInt8) : writeChunk f ip chunk = (do
    beginOp
    ilock ip
    locked f ip chunk) := rfl

theorem follows_locked {K : Option ℕ → Code Unit} {r : Option ℕ}
    (hrun : (locked f (b.file f).ip e).run (Sys.act p x) s = .ok (r, t))
    (htype : (s.inode (b.file f).ip).d.type ≠ T_DEV) (ht : Between b f n hist t)
    (hk : Follows x b f n p (.out false) l (K r)) :
    Follows x b f n p (.sect hist s) l (locked f (b.file f).ip e >>= K) := by
  obtain ⟨g, s₁, hfile, hrun⟩ := run_bind_ok (m := perform (.file f)) hrun
  cases hfile
  obtain ⟨r', s₂, hwrite, hrun⟩ := run_bind_ok hrun
  refine .inside (o := .file f) trivial rfl ?_
  change Follows x b f n p (.sect hist s) l ((writei (b.file f).ip e (s.file f).off >>= _) >>= K)
  rw [Prog.bind_assoc]
  refine .passes (writei_passes htype hwrite) ?_
  dsimp only at hrun ⊢
  split_ifs at hrun ⊢ with hpos
  · obtain ⟨_, s₃, hset, hrun⟩ := run_bind_ok (m := perform (.setOff f _)) hrun
    cases hset
    refine .inside (o := .setOff f _) trivial rfl ?_
    exact follows_iunlock hrun ht hk
  · exact follows_iunlock hrun ht hk

theorem ilock_run {ip : Ip} (hr : 0 < (s.inode ip).ref) (hlock : (s.inode ip).lock = none) :
    (ilock ip).run (Sys.act p x) s = (ilocked ip).run (Sys.act p x) (s.setLock ip (some p)) := by
  have hact : Sys.act p x (.acquiresleep ip) s = .ok ((), s.setLock ip (some p)) := by
    rw [Sys.act, hlock]
    rfl
  have hr1 : ¬ (s.inode ip).ref < 1 := by omega
  rw [ilock_eq, run_bind]
  change (if (s.inode ip).ref < 1 then panic "ilock" else do
    perform (.acquiresleep ip)
    ilocked ip : Code Unit).run (Sys.act p x) s = _
  rw [if_neg hr1, run_bind, perform, Prog.perform, Prog.run, hact]
  rfl

/-- One chunk is written. -/
theorem follows_writeChunk {K : Option ℕ → Code Unit} (hb : Opened b f n)
    (hk : Follows x b f n p (.out false) l (K (some e.length))) :
    Follows x b f n p (.out false) (e :: l) (writeChunk f (b.file f).ip e >>= K) := by
  refine .beginOp (.ref fun r hr => ?_)
  have hr1 : ¬ r < 1 := by omega
  change Follows x b f n p (.out true) (e :: l) (((if r < 1 then panic "ilock" else do
    perform (.acquiresleep (b.file f).ip)
    ilocked (b.file f).ip : Code Unit) >>= fun _ => locked f (b.file f).ip e) >>= K)
  rw [if_neg hr1]
  refine .acquire fun hist s hs hlen => ?_
  -- Alone, and in the only transaction, the process would write the chunk.
  obtain ⟨t, hrun, ht⟩ := (hs.withOps 0).write (p := p) (x := x) hb hlen
  rw [writeChunk_eq] at hrun
  obtain ⟨_, s₁, hbegin, hrun⟩ := run_bind_ok (m := perform .beginOp) hrun
  cases hbegin
  obtain ⟨_, s₂, hlock, hrun⟩ := run_bind_ok hrun
  have hs₁ := hs.withOps 1
  obtain rfl : s₂ = (s.withOps 1).hold p (b.file f).ip :=
    (ilock_hold (E := fun _ => False) hs₁.settled (hs.free _) hs.regular.ref hs₁.regular.inode).returned
      hlock
  have htype : (((s.withOps 1).hold p (b.file f).ip).inode (b.file f).ip).d.type ≠ T_DEV := by
    rw [Sys.hold, setInode_self]
    exact hs₁.regular.file.trans_ne (by decide)
  have hlock' := (ilock_run (x := x) (p := p) hs₁.regular.ref (hs₁.free _)).symm.trans hlock
  change Follows x b f n p _ l ((ilocked (b.file f).ip >>= fun _ => locked f (b.file f).ip e) >>= K)
  rw [Prog.bind_assoc]
  exact .passes (.of_only (only_ilocked _) hlock') (follows_locked hrun htype ht hk)

/-- The loop writes the chunks of its buffer. -/
theorem follows_filewriteLoop {K : Bool → Code Unit} {fuel : ℕ} (hb : Opened b f n)
    (hfuel : src.length ≤ fuel) (hk : Follows x b f n p (.out false) l (K true)) :
    Follows x b f n p (.out false) (chunks src ++ l)
      (filewriteLoop f (b.file f).ip fuel src >>= K) := by
  induction fuel generalizing src with
  | zero =>
    obtain rfl : src = [] := List.length_eq_zero_iff.mp (Nat.le_zero.mp hfuel)
    rw [chunks, if_pos rfl]
    exact hk
  | succ fuel ih =>
    rw [filewriteLoop, chunks]
    split_ifs with hnil
    · exact hk
    · have hpos : 0 < src.length := List.length_pos_iff.mpr hnil
      have hmaxw : maxWrite = 1536 := rfl
      have hdrop : (src.drop maxWrite).length = src.length - maxWrite := List.length_drop
      rw [List.cons_append, Prog.bind_assoc]
      refine follows_writeChunk hb ?_
      dsimp only
      rw [if_neg (not_not.mpr rfl)]
      exact ih (by omega)

theorem follows_filewrite {K : Option ℕ → Code Unit} (hb : Opened b f n)
    (hk : ∀ r, Follows x b f n p (.out false) l (K r)) :
    Follows x b f n p (.out false) (chunks src ++ l) (filewrite f src >>= K) := by
  refine .file fun ⟨type, _, _, writable, ip, _⟩ htype hwr hip => ?_
  obtain ⟨rfl, rfl, rfl⟩ : type = .FD_INODE ∧ writable = true ∧ ip = (b.file f).ip :=
    ⟨htype, hwr, hip⟩
  change Follows x b f n p (.out false) _ ((filewriteLoop f (b.file f).ip src.length src >>= fun done =>
    pure (if done then some src.length else none)) >>= K)
  rw [Prog.bind_assoc]
  exact follows_filewriteLoop hb le_rfl (hk _)

/-- A process writes the chunks of its buffers. -/
theorem follows_writes (hb : Opened b f n) (bufs : List (List UInt8)) :
    Follows x b f n p (.out false) (bufs.flatMap chunks) (writes f bufs) := by
  induction bufs with
  | nil => exact .ret
  | cons src bufs ih =>
    rw [List.flatMap_cons]
    exact follows_filewrite hb fun _ => ih

end

/-! ### All processes -/

/-- The transactions that a process is in. -/
def Place.ops {τ : Type} : Place τ → ℕ
  | .out busy => if busy then 1 else 0
  | .sect _ _ => 1

/-- What a process outside of the section sees. -/
structure Sees {τ : Type} (b : Sys τ) (f : Fp) (s : Sys τ) : Prop where
  type : (s.file f).type = .FD_INODE
  writable : (s.file f).writable = true
  ip : (s.file f).ip = (b.file f).ip
  ref : 1 ≤ (s.inode (b.file f).ip).ref

section

variable {τ : Type} {b s t : Sys τ} {f : Fp} {n k m : ℕ} {hist : History τ} {p q : τ}

theorem Between.sees (hb : Opened b f n) (h : Between b f n hist s) : Sees b f s where
  type := by rw [h.file, hb.type]
  writable := by rw [h.file, hb.writable]
  ip := by rw [h.file]
  ref := h.regular.ref

theorem Sees.keeps (h : Sees b f s) (hk : Keeps s t) : Sees b f t where
  type := (hk.file f).1.trans h.type
  writable := (hk.file f).2.1.trans h.writable
  ip := (hk.file f).2.2.trans h.ip
  ref := (hk.ref _).symm ▸ h.ref

variable [DecidableEq τ] {x : Option (List UInt8)} {bufs : τ → List (List UInt8)}
  {w v : Threads Op Ans (Sys τ) τ} {place : τ → Place τ} {todo : τ → List (List UInt8)}

/-- One process goes on, and the others stay where they are. -/
theorem follows_update {c : Code Unit} {pl : Place τ} {l : List (List UInt8)}
    {prog : τ → Code Unit} (h : ∀ q, Follows x b f n q (place q) (todo q) (prog q))
    (hc : Follows x b f n p pl l c) (q : τ) :
    Follows x b f n q (Function.update place p pl q) (Function.update todo p l q)
      (Function.update prog p c q) := by
  by_cases hq : q = p
  · rw [hq, Function.update_self, Function.update_self, Function.update_self]
    exact hc
  · rw [Function.update_of_ne hq, Function.update_of_ne hq, Function.update_of_ne hq]
    exact h q

theorem History.of_append (hist : History τ) (p q : τ) (e : List UInt8) :
    (hist ++ [(p, e)] : History τ).of q = hist.of q ++ if q = p then [e] else [] := by
  unfold History.of
  rw [List.filter_append, List.map_append]
  split_ifs with hq
  · simp [hq]
  · simp [Ne.symm hq]

variable [Fintype τ]

/-- Process `p` has the lock, and the others have changed the number of transactions only. -/
structure Holding (b : Sys τ) (f : Fp) (hist : History τ) (place : τ → Place τ) (state : Sys τ)
    (p : τ) (h : History τ) (s : Sys τ) : Prop where
  hist : h = hist
  state : state = s.withOps state.outstanding
  lock : (s.inode (b.file f).ip).lock = some p
  sees : Sees b f s
  alone : ∀ q h' s', place q = .sect h' s' → q = p

/-- Every process follows its program; what is written, and what is to be, are the chunks of its
    buffers. -/
structure Inv (x : Option (List UInt8)) (b : Sys τ) (f : Fp) (n : ℕ) (bufs : τ → List (List UInt8))
    (w : Threads Op Ans (Sys τ) τ) (hist : History τ) (place : τ → Place τ)
    (todo : τ → List (List UInt8)) : Prop where
  follows : ∀ p, Follows x b f n p (place p) (todo p) (w.prog p)
  mine : ∀ p, hist.of p ++ todo p = (bufs p).flatMap chunks
  room : hist.bytes.length + ∑ p, (todo p).flatten.length ≤ n
  ops : w.state.outstanding = b.outstanding + ∑ p, (place p).ops
  between : (∀ p h s, place p ≠ .sect h s) → Between b f n hist w.state
  sect : ∀ p h s, place p = .sect h s → Holding b f hist place w.state p h s

theorem sum_update {β : Type} (g : β → ℕ) (F : τ → β) (p : τ) (v : β) :
    ∑ q, g (Function.update F p v q) + g (F p) = ∑ q, g (F q) + g v := by
  rw [← Finset.add_sum_erase _ _ (Finset.mem_univ p), ← Finset.add_sum_erase _ (fun q => g (F q))
    (Finset.mem_univ p), Function.update_self]
  have hrest : ∑ q ∈ Finset.univ.erase p, g (Function.update F p v q) =
      ∑ q ∈ Finset.univ.erase p, g (F q) :=
    Finset.sum_congr rfl fun q hq => by rw [Function.update_of_ne (Finset.ne_of_mem_erase hq)]
  omega

theorem Inv.sees (hb : Opened b f n) (h : Inv x b f n bufs w hist place todo) : Sees b f w.state := by
  by_cases hno : ∀ p h s, place p ≠ .sect h s
  · exact (h.between hno).sees hb
  · push Not at hno
    obtain ⟨p, h', s, hp⟩ := hno
    have hold := h.sect p h' s hp
    rw [hold.state]
    exact ⟨hold.sees.type, hold.sees.writable, hold.sees.ip, hold.sees.ref⟩

/-- A process outside of the section goes on. -/
theorem Inv.quiet {i j : Bool} {c : Code Unit} (h : Inv x b f n bufs w hist place todo)
    (hp : place p = .out i) (hc : Follows x b f n p (.out j) (todo p) c)
    (hm : m + (Place.out i : Place τ).ops = w.state.outstanding + (Place.out j : Place τ).ops) :
    Inv x b f n bufs ⟨w.state.withOps m, Function.update w.prog p c⟩ hist
      (Function.update place p (.out j)) todo where
  follows q := by
    have hq := follows_update h.follows hc q
    rwa [Function.update_eq_self] at hq
  mine := h.mine
  room := h.room
  ops := by
    have hsum := sum_update Place.ops place p (.out j)
    have hops := h.ops
    rw [hp] at hsum
    change m = _
    omega
  between hno := by
    refine (h.between fun q h' s hq => ?_).withOps m
    have hqp : q ≠ p := by
      rintro rfl
      rw [hp] at hq
      cases hq
    exact hno q h' s (by rw [Function.update_of_ne hqp, hq])
  sect q h' s hq := by
    have hold : ∀ {q h' s}, Function.update place p (.out j) q = .sect h' s → place q = .sect h' s := by
      intro q h' s hq
      by_cases hqp : q = p
      · rw [hqp, Function.update_self] at hq
        cases hq
      · rwa [Function.update_of_ne hqp] at hq
    have hq' := h.sect q h' s (hold hq)
    exact ⟨hq'.hist, by rw [hq'.state]; rfl, hq'.lock, hq'.sees, fun r h'' s' hr =>
      hq'.alone r h'' s' (hold hr)⟩

/-- Somebody has the lock, so that it cannot be taken. -/
theorem Inv.unlocked (h : Inv x b f n bufs w hist place todo)
    (hfree : (w.state.inode (b.file f).ip).lock = none) : ∀ p h s, place p ≠ .sect h s := by
  intro p h' s hp
  have hold := h.sect p h' s hp
  have hlock : (w.state.inode (b.file f).ip).lock = some p := by
    rw [hold.state]
    exact hold.lock
  rw [hfree] at hlock
  cases hlock

/-- A process takes the lock. -/
theorem Inv.acquire {e : List UInt8} {l : List (List UInt8)} {c : Code Unit}
    (h : Inv x b f n bufs w hist place todo) (hb : Opened b f n) (hp : place p = .out true)
    (hl : todo p = e :: l) (hfree : (w.state.inode (b.file f).ip).lock = none)
    (hc : ∀ hist s, Between b f n hist s → hist.bytes.length + e.length ≤ n →
      Follows x b f n p
        (.sect (hist ++ [(p, e)]) ((s.withOps 1).setLock (b.file f).ip (some p))) l c) :
    Inv x b f n bufs ⟨w.state.setLock (b.file f).ip (some p), Function.update w.prog p c⟩
      (hist ++ [(p, e)])
      (Function.update place p
        (.sect (hist ++ [(p, e)]) ((w.state.withOps 1).setLock (b.file f).ip (some p))))
      (Function.update todo p l) := by
  have hno := h.unlocked hfree
  have hbetween := h.between hno
  have hsum := sum_update (fun l => (List.flatten l).length) todo p l
  have hroom := h.room
  rw [hl, List.flatten_cons, List.length_append] at hsum
  refine ⟨follows_update h.follows (hc hist _ hbetween (by omega)), ?_, ?_, ?_, ?_, ?_⟩
  · intro q
    rw [History.of_append]
    by_cases hq : q = p
    · rw [if_pos hq, hq, Function.update_self, List.append_assoc, List.singleton_append, ← hl]
      exact h.mine p
    · rw [if_neg hq, List.append_nil, Function.update_of_ne hq]
      exact h.mine q
  · rw [History.bytes_append, List.length_append]
    omega
  · have hops := h.ops
    have hsum := sum_update Place.ops place p
      (.sect (hist ++ [(p, e)]) ((w.state.withOps 1).setLock (b.file f).ip (some p)))
    rw [hp] at hsum
    change w.state.outstanding = _
    change _ + 1 = _ + 1 at hsum
    omega
  · intro hnone
    exact absurd (Function.update_self ..) (hnone p _ _)
  · intro q h' s hq
    have hqp : ∀ {q h' s}, Function.update place p (.sect (hist ++ [(p, e)])
        ((w.state.withOps 1).setLock (b.file f).ip (some p))) q = .sect h' s → q = p := by
      intro q h' s hq
      by_contra hqp
      rw [Function.update_of_ne hqp] at hq
      exact hno q h' s hq
    obtain rfl := hqp hq
    rw [Function.update_self] at hq
    cases hq
    have hsees := hbetween.sees hb
    refine ⟨rfl, rfl, ?_, ⟨hsees.type, hsees.writable, hsees.ip, ?_⟩, fun r _ _ hr => hqp hr⟩
    · rw [Sys.setLock, setInode_self]
    · rw [Sys.setLock, setInode_self]
      exact hsees.ref

/-- The process with the lock goes on alone. -/
theorem Inv.inside {s' : Sys τ} {c : Code Unit} {l : History τ}
    (h : Inv x b f n bufs w hist place todo) (hp : place p = .sect l s)
    (hkeep : Keeps s t) (hs' : s' = t.withOps w.state.outstanding)
    (hc : Follows x b f n p (.sect l t) (todo p) c) :
    Inv x b f n bufs ⟨s', Function.update w.prog p c⟩ hist (Function.update place p (.sect l t))
      todo := by
  have hold := h.sect p l s hp
  have hout : s'.outstanding = w.state.outstanding := by
    rw [hs']
    rfl
  have halone : ∀ {q h' s'}, Function.update place p (.sect l t) q = .sect h' s' → q = p := by
    intro q h' s' hq
    by_contra hqp
    rw [Function.update_of_ne hqp] at hq
    exact hqp (hold.alone q h' s' hq)
  refine ⟨fun q => ?_, h.mine, h.room, ?_, ?_, ?_⟩
  · have hq := follows_update h.follows hc q
    rwa [Function.update_eq_self] at hq
  · have hops := h.ops
    have hsum := sum_update Place.ops place p (.sect l t)
    rw [hp] at hsum
    change s'.outstanding = _
    change _ + 1 = _ + 1 at hsum
    omega
  · intro hnone
    exact absurd (Function.update_self ..) (hnone p _ _)
  · intro q h' s₁ hq
    obtain rfl := halone hq
    rw [Function.update_self] at hq
    cases hq
    refine ⟨hold.hist, ?_, ?_, hold.sees.keeps hkeep, fun r _ _ hr => halone hr⟩
    · change s' = t.withOps s'.outstanding
      rw [hout, hs']
    · rw [hkeep.lock]
      exact hold.lock

/-- The process gives up the lock. -/
theorem Inv.release {c : Code Unit} {l : History τ} (h : Inv x b f n bufs w hist place todo)
    (hp : place p = .sect l s) (hs : Between b f n l (s.setLock (b.file f).ip none))
    (hc : Follows x b f n p (.out true) (todo p) c) :
    Inv x b f n bufs ⟨w.state.setLock (b.file f).ip none, Function.update w.prog p c⟩ hist
      (Function.update place p (.out true)) todo := by
  have hold := h.sect p l s hp
  have hnone : ∀ q h' s', Function.update place p (.out true) q ≠ .sect h' s' := by
    intro q h' s' hq
    by_cases hqp : q = p
    · rw [hqp, Function.update_self] at hq
      cases hq
    · rw [Function.update_of_ne hqp] at hq
      exact hqp (hold.alone q h' s' hq)
  refine ⟨fun q => ?_, h.mine, h.room, ?_, fun _ => ?_, fun q h' s' hq => absurd hq (hnone q h' s')⟩
  · have hq := follows_update h.follows hc q
    rwa [Function.update_eq_self] at hq
  · have hops := h.ops
    have hsum := sum_update Place.ops place p (.out true)
    rw [hp] at hsum
    change w.state.outstanding = _
    change _ + 1 = _ + 1 at hsum
    omega
  · rw [← hold.hist]
    change Between b f n l (w.state.setLock (b.file f).ip none)
    rw [hold.state]
    exact hs.withOps w.state.outstanding

/-- There is a transaction while a process is in one. -/
theorem Inv.ops_pos (h : Inv x b f n bufs w hist place todo) (hp : (place p).ops = 1) :
    1 ≤ w.state.outstanding := by
  have hsum := Finset.add_sum_erase _ (fun q => (place q).ops) (Finset.mem_univ p)
  have hops := h.ops
  omega

/-- One operation of one process. -/
theorem Inv.step (hb : Opened b f n) (h : Inv x b f n bufs w hist place todo)
    (hst : w.Step (fun p => Sys.act p x) p v) :
    ∃ hist' place' todo', Inv x b f n bufs v hist' place' todo' := by
  obtain ⟨o, k, a, s', hprog, hact, rfl⟩ := Threads.step_cases hst
  have hF := h.follows p
  have hsees := h.sees hb
  rw [hprog] at hF
  generalize hp : place p = pl at hF
  generalize hl : todo p = l at hF
  cases hF with
  | file hk =>
    cases hact
    refine ⟨hist, _, todo, h.quiet (m := w.state.outstanding) hp ?_ rfl⟩
    exact hl ▸ hk _ hsees.type hsees.writable hsees.ip
  | beginOp hk =>
    cases hact
    exact ⟨hist, _, todo, h.quiet (m := w.state.outstanding + 1) hp (hl ▸ hk) rfl⟩
  | ref hk =>
    cases hact
    exact ⟨hist, _, todo, h.quiet (m := w.state.outstanding) hp (hl ▸ hk _ hsees.ref) rfl⟩
  | @acquire _ l e hk =>
    have hfree : (w.state.inode (b.file f).ip).lock = none := by
      dsimp only [Sys.act] at hact
      split_ifs at hact with hlock
      exact Option.not_isSome_iff_eq_none.mp hlock
    have hs' : Sys.act p x (.acquiresleep (b.file f).ip) w.state =
        .ok ((), w.state.setLock (b.file f).ip (some p)) := by
      rw [Sys.act, hfree]
      rfl
    cases hact.symm.trans hs'
    exact ⟨_, _, _, h.acquire hb hp hl hfree hk⟩
  | @inside l s t _ a' _ _ ho ha hk =>
    have hold := h.sect p l s hp
    have hpos : 1 ≤ w.state.outstanding := h.ops_pos (p := p) (by rw [hp]; rfl)
    have hact' := ho.withOps hpos ha
    rw [← hold.state] at hact'
    cases hact.symm.trans hact'
    exact ⟨hist, _, todo, h.inside hp (ho.keeps ha) rfl (hl ▸ hk)⟩
  | release hs hk =>
    cases hact
    exact ⟨hist, _, todo, h.release hp hs (hl ▸ hk)⟩
  | endOp hk =>
    cases hact
    have hpos : 1 ≤ w.state.outstanding := h.ops_pos (p := p) (by rw [hp]; rfl)
    refine ⟨hist, _, todo, h.quiet (m := w.state.outstanding - 1) hp (hl ▸ hk) ?_⟩
    change w.state.outstanding - 1 + 1 = _
    rw [Nat.sub_add_cancel hpos]
    rfl

theorem Inv.start (x : Option (List UInt8)) (hb : Opened b f n)
    (hn : ∑ p, (bufs p).flatten.length ≤ n) :
    Inv x b f n bufs ⟨b, fun p => writes f (bufs p)⟩ [] (fun _ => .out false)
      (fun p => (bufs p).flatMap chunks) where
  follows p := follows_writes hb (bufs p)
  mine _ := rfl
  room := by
    simp only [flatten_flatMap_chunks]
    exact (Nat.zero_add _).trans_le hn
  ops := by
    change b.outstanding = b.outstanding + ∑ _, 0
    rw [Finset.sum_const_zero, Nat.add_zero]
  between _ := hb.between
  sect _ _ _ hp := nomatch hp

/-- The process with the lock can go on. -/
theorem Inv.holder {l : History τ} (h : Inv x b f n bufs w hist place todo)
    (hp : place p = .sect l s) :
    ∃ o k r, w.prog p = .op o k ∧ Sys.act p x o w.state = .ok r := by
  have hF := h.follows p
  have hold := h.sect p l s hp
  rw [hp] at hF
  generalize todo p = rest at hF
  generalize hc : w.prog p = c at hF
  cases hF with
  | inside ho ha hk =>
    have hact := ho.withOps (h.ops_pos (p := p) (by rw [hp]; rfl)) ha
    rw [← hold.state] at hact
    exact ⟨_, _, _, rfl, hact⟩
  | release hs hk => exact ⟨_, _, _, rfl, rfl⟩

/-- A process has nothing left to do, or can go on, or waits for the lock that another one has. -/
theorem Inv.acts (h : Inv x b f n bufs w hist place todo) (p : τ) : (w.prog p).Returned ∨
    (∃ o k r, w.prog p = .op o k ∧ Sys.act p x o w.state = .ok r) ∨
      (∃ o k, w.prog p = .op o k ∧ Sys.act p x o w.state = .error .blocked) ∧
        ∃ q l s, place q = .sect l s := by
  have hF := h.follows p
  generalize hpl : place p = pl at hF
  generalize todo p = rest at hF
  generalize hc : w.prog p = c at hF
  cases hF with
  | ret => exact .inl trivial
  | file | beginOp | ref | endOp => exact .inr (.inl ⟨_, _, _, rfl, rfl⟩)
  | inside | release =>
    rw [← hc]
    exact .inr (.inl (h.holder hpl))
  | acquire hk =>
    by_cases hlock : (w.state.inode (b.file f).ip).lock.isSome
    · refine .inr (.inr ⟨⟨_, _, rfl, if_pos hlock⟩, ?_⟩)
      by_contra hno
      push Not at hno
      have hfree := (h.between hno).free (b.file f).ip
      rw [hfree] at hlock
      exact absurd hlock Bool.false_ne_true
    · exact .inr (.inl ⟨_, _, _, rfl, if_neg hlock⟩)

/-- No operation stops the system. -/
theorem Inv.not_panics (h : Inv x b f n bufs w hist place todo) (p : τ) :
    ¬ w.Panics (fun p => Sys.act p x) p := by
  intro hpanic
  unfold Threads.Panics at hpanic
  rcases h.acts p with hret | ⟨o, k, r, hc, hact⟩ | ⟨⟨o, k, hc, hact⟩, -⟩
  · cases hc : w.prog p with
    | ret a =>
      rw [hc] at hpanic
      exact hpanic
    | op o k =>
      rw [hc] at hret
      exact hret
  · rw [hc] at hpanic
    obtain ⟨msg, he⟩ := hpanic
    cases hact.symm.trans he
  · rw [hc] at hpanic
    obtain ⟨msg, he⟩ := hpanic
    cases hact.symm.trans he

/-- As long as a process has something to do, one of them can go on. -/
theorem Inv.progress (h : Inv x b f n bufs w hist place todo) (hp : ¬ (w.prog p).Returned) :
    ∃ q v, w.Step (fun p => Sys.act p x) q v := by
  rcases h.acts p with hret | ⟨o, k, r, hc, hact⟩ | ⟨-, q, l, s, hq⟩
  · exact absurd hret hp
  · exact ⟨p, _, Threads.step_of_act hc hact⟩
  · obtain ⟨o, k, r, hc, hact⟩ := h.holder hq
    exact ⟨q, _, Threads.step_of_act hc hact⟩

/-- When all have returned, everything has been written. -/
theorem Inv.finished (h : Inv x b f n bufs w hist place todo) (hret : ∀ p, (w.prog p).Returned) :
    Between b f n hist w.state ∧ ∀ p, hist.of p = (bufs p).flatMap chunks := by
  have hplace : ∀ p, place p = .out false ∧ todo p = [] := by
    intro p
    have hF := h.follows p
    have hr := hret p
    generalize place p = pl at hF ⊢
    generalize todo p = l at hF ⊢
    generalize w.prog p = c at hF hr
    cases hF with
    | ret => exact ⟨rfl, rfl⟩
    | _ => exact hr.elim
  refine ⟨h.between fun p l s hp => ?_, fun p => ?_⟩
  · rw [(hplace p).1] at hp
    cases hp
  · have hmine := h.mine p
    rwa [(hplace p).2, List.append_nil] at hmine

end

end Xv6.Fs.Append
