import Xv6.Fs.Filewrite
import Xv6.Schemes.Threads

/-! @src file.c fs.c | name:A write under the lock of its inode | layer:proof

    From the time `filewrite` has the lock of the inode until it gives it up, its operations do not
    depend on how many transactions there are, and what other processes look at stays: the references
    and the locks of the inodes, and what an open file is of. -/

namespace Xv6.Fs
open Xv6.Disk Xv6.Schemes

/-- The operations of a process that has locked the inode it writes. -/
def Inside : Op → Prop
  | .panic _ | .getSb | .setSb _ | .bread _ | .setData _ _ | .logWrite _ | .brelse _
  | .holdingsleep _ | .ref _ | .get _ | .modify _ _ | .setValid _ _ | .file _ | .setOff _ _ => True
  | _ => False

/-- There are `n` transactions. -/
def Sys.withOps {τ : Type} (s : Sys τ) (n : ℕ) : Sys τ := { s with outstanding := n }

/-- What other processes look at is the same. -/
structure Keeps {τ : Type} (s t : Sys τ) : Prop where
  outstanding : t.outstanding = s.outstanding
  ref : ∀ ip, (t.inode ip).ref = (s.inode ip).ref
  lock : ∀ ip, (t.inode ip).lock = (s.inode ip).lock
  file : ∀ f, (t.file f).type = (s.file f).type ∧ (t.file f).writable = (s.file f).writable ∧
    (t.file f).ip = (s.file f).ip

section

variable {τ α : Type} {p : τ} {x : Option (List UInt8)} {s t : Sys τ} {ip : Ip} {f : Fp}
  {o : Op} {a : Ans o} {n : ℕ}

theorem Keeps.refl (s : Sys τ) : Keeps s s :=
  ⟨rfl, fun _ => rfl, fun _ => rfl, fun _ => ⟨rfl, rfl, rfl⟩⟩

theorem Keeps.setInode {c : Inode τ} (hr : c.ref = (s.inode ip).ref)
    (hl : c.lock = (s.inode ip).lock) : Keeps s (s.setInode ip c) where
  outstanding := rfl
  ref jp := by
    by_cases hj : jp = ip
    · rw [hj, setInode_self, hr]
    · rw [setInode_other hj]
  lock jp := by
    by_cases hj : jp = ip
    · rw [hj, setInode_self, hl]
    · rw [setInode_other hj]
  file _ := ⟨rfl, rfl, rfl⟩

theorem Keeps.setOff (off : ℕ) : Keeps s (s.setFile f { s.file f with off := off }) where
  outstanding := rfl
  ref _ := rfl
  lock _ := rfl
  file g := by
    by_cases hg : g = f
    · rw [hg, setFile_self]
      exact ⟨rfl, rfl, rfl⟩
    · have he : (s.setFile f { s.file f with off := off }).file g = s.file g :=
        Function.update_of_ne hg ..
      rw [he]
      exact ⟨rfl, rfl, rfl⟩

variable [DecidableEq τ]

theorem Inside.keeps (ho : Inside o) (h : Sys.act p x o s = .ok (a, t)) : Keeps s t := by
  cases o with
  | panic msg => exact nomatch a
  | getSb | setSb _ | setData _ _ | holdingsleep _ | ref _ | get _ | file _ =>
    cases h
    exact ⟨rfl, fun _ => rfl, fun _ => rfl, fun _ => ⟨rfl, rfl, rfl⟩⟩
  | bread l =>
    rw [Sys.act] at h
    split_ifs at h
    cases h
    exact ⟨rfl, fun _ => rfl, fun _ => rfl, fun _ => ⟨rfl, rfl, rfl⟩⟩
  | logWrite n =>
    rw [Sys.act] at h
    split_ifs at h
    cases h
    exact .refl s
  | brelse n =>
    rw [Sys.act] at h
    split_ifs at h
    cases h
    exact ⟨rfl, fun _ => rfl, fun _ => rfl, fun _ => ⟨rfl, rfl, rfl⟩⟩
  | modify ip f =>
    cases h
    exact .setInode rfl rfl
  | setValid ip v =>
    cases h
    exact .setInode rfl rfl
  | setOff f off =>
    cases h
    exact .setOff off
  | _ => exact ho.elim

/-- The operation does not depend on the number of transactions. -/
theorem Inside.withOps (ho : Inside o) (hn : 1 ≤ n) (h : Sys.act p x o s = .ok (a, t)) :
    Sys.act p x o (s.withOps n) = .ok (a, t.withOps n) := by
  cases o with
  | panic msg => exact nomatch a
  | getSb | setSb _ | setData _ _ | holdingsleep _ | ref _ | get _ | file _ | modify _ _
  | setValid _ _ | setOff _ _ =>
    cases h
    rfl
  | bread l =>
    rw [Sys.act] at h ⊢
    split_ifs at h with h1 h2
    cases h
    exact (if_neg h1).trans (if_neg h2)
  | logWrite n =>
    rw [Sys.act] at h ⊢
    split_ifs at h
    cases h
    exact if_neg (not_lt.mpr hn)
  | brelse n =>
    rw [Sys.act] at h ⊢
    split_ifs at h with hb
    cases h
    exact if_pos hb
  | _ => exact ho.elim

/-! ### The functions of a write -/

theorem only_bread (l : Loc) : (bread l).Only Inside := .perform trivial

theorem only_brelse (n : ℕ) : (brelse n).Only Inside := .perform trivial

theorem only_logged (n : ℕ) (b : Block) : (logged n b).Only Inside :=
  .perform_bind trivial fun _ => .perform trivial

theorem only_panic (msg : String) : (panic msg : Code α).Only Inside := ⟨trivial, fun e => nomatch e⟩

theorem only_bzero (bno : ℕ) : (bzero bno).Only Inside :=
  .bind (only_bread _) fun _ => .bind (only_logged _ _) fun _ => only_brelse _

theorem only_ballocLoop (size m k : ℕ) : (ballocLoop size m k).Only Inside := by
  induction m generalizing k with
  | zero => exact only_panic _
  | succ m ih =>
    refine .bind (only_bread _) fun bp => ?_
    split
    · exact .bind (only_logged _ _) fun _ => .bind (only_brelse _) fun _ =>
        .bind (only_bzero _) fun _ => .pure _
    · exact .bind (only_brelse _) fun _ => ih _

theorem only_balloc : balloc.Only Inside :=
  .perform_bind trivial fun _ => only_ballocLoop _ _ _

theorem only_slot (ip : Ip) (i : Slot) : (slot ip i).Only Inside := by
  refine .perform_bind trivial fun c => ?_
  split_ifs
  · exact .bind only_balloc fun _ => .perform_bind trivial fun _ => .pure _
  · exact .pure _

theorem only_bmap (ip : Ip) (bn : ℕ) : (bmap ip bn).Only Inside := by
  rw [bmap]
  split_ifs
  · exact only_slot _ _
  · refine .bind (only_slot _ _) fun a => .bind (only_bread _) fun bp => ?_
    split_ifs
    · exact .bind only_balloc fun _ => .bind (only_logged _ _) fun _ =>
        .bind (only_brelse _) fun _ => .pure _
    · exact .bind (only_brelse _) fun _ => .pure _
  · exact only_panic _

theorem only_writeLoop (ip : Ip) (fuel off : ℕ) (src : List UInt8) :
    (writeLoop ip fuel off src).Only Inside := by
  induction fuel generalizing off src with
  | zero => exact .pure _
  | succ fuel ih =>
    rw [writeLoop]
    split_ifs
    · exact .pure _
    · exact .bind (only_bmap _ _) fun _ => .bind (only_bread _) fun _ =>
        .bind (only_logged _ _) fun _ => .bind (only_brelse _) fun _ => ih _ _

theorem only_iupdate (ip : Ip) : (iupdate ip).Only Inside :=
  .perform_bind trivial fun _ => .bind (only_bread _) fun _ =>
    .bind (only_logged _ _) fun _ => only_brelse _

/-- What `writei` does with a file that is no device. -/
theorem writei_passes {src : List UInt8} {off : ℕ} {r : Option ℕ}
    (htype : (s.inode ip).d.type ≠ T_DEV)
    (h : (writei ip src off).run (Sys.act p x) s = .ok (r, t)) :
    Passes (Sys.act p x) Inside s (writei ip src off) r t := by
  obtain ⟨c, s', hget, h⟩ := run_bind_ok h
  cases hget
  refine .perform_bind trivial rfl (.of_only ?_ h)
  dsimp only
  rw [if_neg htype]
  split_ifs
  · exact .pure _
  · exact .pure _
  · refine .bind (only_writeLoop _ _ _ _) fun _ => .perform_bind trivial fun _ => ?_
    split_ifs
    · exact .perform_bind trivial fun _ => .bind (only_iupdate _) fun _ => .pure _
    · exact .pure _

end

end Xv6.Fs
