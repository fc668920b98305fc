import Xv6.Ide.Driver
import Xv6.Schemes.Run

/-! @src ide.c memide.c | name:The IDE driver agrees with the disk in memory | layer:proof

    The queue holds the requests that have not been served, oldest first, and its head is the
    command in progress. At each interrupt the head is served as `memide.c` serves it, and its
    process comes back to just that. -/

namespace Xv6.Ide
open Xv6.Disk (Block BSIZE)
open Xv6.Schemes
open Xv6.Schemes.X86 (Word)

/-! ### Commands -/

section

variable {β τ : Type} {x : Buf β τ}

/-- The byte of a word that `outb` writes. -/
theorem toNat_outb (n : Word) (k : ℕ) :
    (((n >>> k) &&& 0xff).setWidth 8 : Byte).toNat = n.toNat / 2 ^ k % 256 := by
  have hmask : (0xff : Word).toNat = 2 ^ 8 - 1 := rfl
  rw [BitVec.toNat_setWidth, BitVec.toNat_and, hmask, Nat.and_two_pow_sub_one_eq_mod,
    BitVec.toNat_ushiftRight, Nat.shiftRight_eq_div_pow, Nat.mod_mod]

/-- The buffer asks for something, on a block of disk 1. -/
structure Wants (x : Buf β τ) : Prop where
  todo : ¬ x.Done
  dev : x.dev = 1
  range : x.blockno.toNat < FSSIZE

theorem inRange_iff {n : Word} : ¬ n ≥ BitVec.ofNat 32 FSSIZE ↔ n.toNat < FSSIZE := by
  rw [ge_iff_le, BitVec.not_le, BitVec.lt_def]
  rfl

/-- The command for a buffer selects its block on its disk. -/
theorem idestart_spec (h : Wants x) (disk : Bool → ℕ → Block) :
    ∃ c, idestart x = some c ∧ c.perform disk =
      if x.dirty then
        (Function.update disk true (Function.update (disk true) x.blockno.toNat x.data), x.data)
      else (disk, disk true x.blockno.toNat) := by
  have hlt : x.blockno.toNat < 1000 := h.range
  have hsector : x.blockno * BitVec.ofNat 32 (BSIZE / SECTOR_SIZE) = x.blockno :=
    BitVec.mul_one x.blockno
  have hhigh : x.blockno >>> 24 = 0 := by
    refine BitVec.eq_of_toNat_eq ?_
    rw [BitVec.toNat_ushiftRight, Nat.shiftRight_eq_div_pow]
    exact Nat.div_eq_of_lt (by omega)
  have hsel : (0xe0 ||| ((x.dev &&& 1) <<< 4) ||| ((x.blockno >>> 24) &&& 0x0f)).setWidth 8 =
      (0xf0 : Byte) := by
    rw [hhigh, h.dev]
    decide
  have hlo : ((x.blockno &&& 0xff).setWidth 8 : Byte).toNat = x.blockno.toNat % 256 := by
    simpa using toNat_outb x.blockno 0
  have hcount : ¬ BSIZE / SECTOR_SIZE > 7 := by decide
  unfold idestart
  rw [if_neg (inRange_iff.mpr h.range)]
  dsimp only
  rw [if_neg hcount, hsector, hsel]
  refine ⟨_, rfl, ?_⟩
  have hsum : x.blockno.toNat % 256 + 0x100 * (x.blockno.toNat / 2 ^ 8 % 256) +
      0x10000 * (x.blockno.toNat / 2 ^ 16 % 256) + 0x1000000 * ((0xf0 : Byte).toNat % 16) =
      x.blockno.toNat := by
    have hz : (0xf0 : Byte).toNat % 16 = 0 := rfl
    rw [hz]
    omega
  cases hd : x.dirty <;>
    simp only [Command.perform, Command.sector, Command.drive, hlo, toNat_outb, hsum, if_true,
      Bool.false_eq_true, if_false]
  · rfl
  · rfl

/-- `memide.c` serves a buffer that asks for something. -/
theorem memiderw_wants [DecidableEq τ] {p : τ} {mem : ℕ → Block} (h : Wants x)
    (hlock : x.lock = some p) :
    memiderw FSSIZE p mem x =
      some (if x.dirty then Function.update mem x.blockno.toNat x.data else mem,
        { x with
          data := if x.dirty then x.data else mem x.blockno.toNat, valid := true, dirty := false }) := by
  have hdev : ¬ x.dev ≠ 1 := fun hne => hne h.dev
  have hheld : ¬ x.lock ≠ some p := fun hne => hne hlock
  unfold memiderw
  rw [if_neg hheld, if_neg h.todo, if_neg hdev, if_neg (inRange_iff.mpr h.range)]
  cases hd : x.dirty
  · simp
  · simp

end

/-! ### The invariant -/

section

variable {β τ : Type} {s t : Sys β τ} {b : β} {p : τ} {n : ℕ}

/-- The requests that have not been served. -/
def Sys.pending (s : Sys β τ) : List (τ × β) := s.asked.drop s.served.length

/-- Their buffers. -/
def Sys.queue (s : Sys β τ) : List β := s.pending.map Prod.snd

/-- The head of the queue is the command in progress, and only what that has done makes a
    difference to the disk. -/
def Head (s : Sys β τ) : Prop :=
  match s.ctl with
  | .idle => s.queue = [] ∧ s.disk true = s.mem
  | .busy c => ∃ b rest, s.queue = b :: rest ∧ idestart (s.buf b) = some c ∧ s.disk true = s.mem
  | .done d => ∃ b rest c disk, s.queue = b :: rest ∧ idestart (s.buf b) = some c ∧
      disk true = s.mem ∧ c.perform disk = (s.disk, d)

/-- The driver is in order: requests are served first come first served, each process waits for its
    own one, and has what was served when that is done. -/
structure Inv (s : Sys β τ) : Prop where
  chain : Linked.Chain s.link none s.queue
  fifo : (s.asked.take s.served.length).map Prod.snd = s.served.map Prod.fst
  inside : ∀ p n b, (s.place p).inside = some (n, b) → s.asked[n]? = some (p, b) ∧
    (s.buf b).lock = some p ∧
      (n < s.served.length → (s.buf b).Done ∧ s.served[n]? = some (b, (s.buf b).data))
  owner : ∀ n p b, s.asked[n]? = some (p, b) → s.served.length ≤ n →
    (s.place p).inside = some (n, b)
  wants : ∀ b ∈ s.queue, Wants (s.buf b)
  head : Head s

theorem mem_queue : b ∈ s.queue ↔ ∃ n p, s.asked[n]? = some (p, b) ∧ s.served.length ≤ n := by
  unfold Sys.queue Sys.pending
  constructor
  · intro hb
    obtain ⟨⟨p, c⟩, hmem, rfl⟩ := List.mem_map.mp hb
    obtain ⟨i, hi⟩ := List.mem_iff_getElem?.mp hmem
    rw [List.getElem?_drop] at hi
    exact ⟨_, p, hi, Nat.le_add_right _ _⟩
  · rintro ⟨n, p, hn, hle⟩
    refine List.mem_map.mpr ⟨(p, b), List.mem_iff_getElem?.mpr ⟨n - s.served.length, ?_⟩, rfl⟩
    rw [List.getElem?_drop, Nat.add_sub_of_le hle, hn]

/-- Two requests for one buffer are not pending at once. -/
theorem Inv.pending_inj (h : Inv s) {m : ℕ} {p q : τ} (hm : s.asked[m]? = some (p, b))
    (hn : s.asked[n]? = some (q, b)) (hlm : s.served.length ≤ m) (hln : s.served.length ≤ n) :
    m = n := by
  have hp := h.owner m p b hm hlm
  have hq := h.owner n q b hn hln
  obtain rfl : p = q := by
    have := (h.inside p m b hp).2.1
    rw [(h.inside q n b hq).2.1] at this
    exact (Option.some.inj this).symm
  exact (Prod.mk.inj (Option.some.inj (hp.symm.trans hq))).1

theorem Inv.nodup (h : Inv s) : s.queue.Nodup := by
  unfold Sys.queue Sys.pending
  refine List.nodup_iff_getElem?_ne_getElem?.mpr fun i j hij hj he => ?_
  rw [List.getElem?_map, List.getElem?_map, List.getElem?_drop, List.getElem?_drop] at he
  rw [List.length_map, List.length_drop] at hj
  have hlt : s.served.length + j < s.asked.length := by omega
  have hlt' : s.served.length + i < s.asked.length := by omega
  rw [List.getElem?_eq_getElem hlt, List.getElem?_eq_getElem hlt'] at he
  have hb := Option.some.inj he
  have := h.pending_inj (m := s.served.length + i) (n := s.served.length + j)
    (p := (s.asked[s.served.length + i]).1) (q := (s.asked[s.served.length + j]).1)
    (b := (s.asked[s.served.length + j]).2)
    (by rw [List.getElem?_eq_getElem hlt', ← hb]) (by rw [List.getElem?_eq_getElem hlt])
    (Nat.le_add_right _ _) (Nat.le_add_right _ _)
  omega

theorem Inv.served_le (h : Inv s) : s.served.length ≤ s.asked.length := by
  have := congrArg List.length h.fifo
  rw [List.length_map, List.length_map, List.length_take] at this
  omega

/-- The same requests in the same buffers, by the same processes. -/
theorem Inv.congr (h : Inv s) (hasked : t.asked = s.asked) (hserved : t.served = s.served)
    (hlink : t.link = s.link) (hbuf : t.buf = s.buf)
    (hinside : ∀ p, (t.place p).inside = (s.place p).inside) (hhead : Head t) : Inv t := by
  have hqueue : t.queue = s.queue := by rw [Sys.queue, Sys.pending, hasked, hserved]; rfl
  refine ⟨by rw [hlink, hqueue]; exact h.chain, by rw [hasked, hserved]; exact h.fifo,
    fun p n b hp => ?_, fun n p b hn hle => ?_, fun b hb => ?_, hhead⟩
  · rw [hasked, hserved, hbuf]
    exact h.inside p n b (hinside p ▸ hp)
  · rw [hinside]
    exact h.owner n p b (hasked ▸ hn) (hserved ▸ hle)
  · rw [hbuf]
    exact h.wants b (hqueue ▸ hb)

/-- The head of the queue is in `idequeue`. -/
theorem Inv.idequeue (h : Inv s) : s.idequeue = s.queue.head? := h.chain.head

variable [DecidableEq β] [DecidableEq τ]

omit [DecidableEq τ] in
/-- A buffer that nobody is in `iderw` with can change as it likes. -/
theorem Inv.elsewhere (h : Inv s) {x : Buf β τ} (hno : ∀ p n, (s.place p).inside ≠ some (n, b))
    (hx : x.qnext = (s.buf b).qnext) : Inv { s with buf := Function.update s.buf b x } := by
  have hbq : b ∉ s.queue := by
    intro hb
    obtain ⟨n, p, hn, hle⟩ := mem_queue.mp hb
    exact hno p n (h.owner n p b hn hle)
  have hne : ∀ c ∈ s.queue, Function.update s.buf b x c = s.buf c := fun c hc =>
    Function.update_of_ne (fun he : c = b => hbq (he ▸ hc)) ..
  have hlink : Sys.link { s with buf := Function.update s.buf b x } = s.link := by
    funext pp
    cases pp with
    | none => rfl
    | some c =>
      change (Function.update s.buf b x c).qnext = (s.buf c).qnext
      rcases eq_or_ne c b with rfl | hcb
      · rw [Function.update_self, hx]
      · rw [Function.update_of_ne hcb]
  refine ⟨by rw [hlink]; exact h.chain, h.fifo, fun p n c hp => ?_, h.owner, fun c hc => ?_, ?_⟩
  · have hcb : c ≠ b := by
      rintro rfl
      exact hno p n hp
    change _ ∧ (Function.update s.buf b x c).lock = _ ∧ (_ → (Function.update s.buf b x c).Done ∧ _ =
      some (c, (Function.update s.buf b x c).data))
    rw [Function.update_of_ne hcb]
    exact h.inside p n c hp
  · change Wants (Function.update s.buf b x c)
    rw [hne c hc]
    exact h.wants c hc
  · have hhead := h.head
    unfold Head at hhead ⊢
    dsimp only
    cases hctl : s.ctl with
    | idle =>
      rw [hctl] at hhead
      exact hhead
    | busy c =>
      rw [hctl] at hhead
      obtain ⟨d, rest, hq, hc, hd⟩ := hhead
      refine ⟨d, rest, hq, ?_, hd⟩
      rw [hne d (hq ▸ List.mem_cons_self)]
      exact hc
    | done d =>
      rw [hctl] at hhead
      obtain ⟨e, rest, c, disk, hq, hc, hd⟩ := hhead
      refine ⟨e, rest, c, disk, hq, ?_, hd⟩
      rw [hne e (hq ▸ List.mem_cons_self)]
      exact hc

omit [DecidableEq β] in
/-- Going around the loop of `iderw`, and out of it once the request is served. -/
theorem inv_await (h : Inv s) (hp : (s.place p).inside = some (n, b)) : Inv (s.await p n b) := by
  unfold Sys.await
  split
  · rename_i hdone
    have hother : ∀ q, q ≠ p → Function.update s.place p Place.out q = s.place q := fun q hq =>
      Function.update_of_ne hq ..
    refine ⟨h.chain, h.fifo, fun q m c hq => ?_, fun m q c hm hle => ?_, h.wants, h.head⟩
    · rcases eq_or_ne q p with rfl | hne
      · simp [Sys.goto, Place.inside] at hq
      · refine h.inside q m c ?_
        rw [← hother q hne]
        exact hq
    · have hq := h.owner m q c hm hle
      have hne : q ≠ p := by
        rintro rfl
        obtain ⟨rfl, rfl⟩ : n = m ∧ b = c := by simpa [hp] using hq
        exact (h.wants b (mem_queue.mpr ⟨n, q, hm, hle⟩)).todo hdone
      change (Function.update s.place p Place.out q).inside = _
      rw [hother q hne]
      exact hq
  · refine h.congr rfl rfl rfl rfl (fun q => ?_) h.head
    unfold Sys.goto
    rcases eq_or_ne q p with rfl | hne
    · simp only [Function.update_self, hp]
      rfl
    · simp [hne]

/-! ### A request -/

omit [DecidableEq τ] in
theorem link_setLink (pp x : Option β) : (s.setLink pp x).link = Function.update s.link pp x := by
  funext qq
  cases pp with
  | none =>
    cases qq with
    | none => simp [Sys.setLink, Sys.link]
    | some c => simp [Sys.setLink, Sys.link]
  | some b =>
    cases qq with
    | none => simp [Sys.setLink, Sys.link]
    | some c =>
      rcases eq_or_ne c b with rfl | hne
      · simp [Sys.setLink, Sys.link]
      · simp [Sys.setLink, Sys.link, hne]

omit [DecidableEq τ] in
/-- A store to a pointer of the queue changes nothing else. -/
theorem setLink_same (pp x : Option β) : s.setLink pp x =
    { s with idequeue := (s.setLink pp x).idequeue, buf := (s.setLink pp x).buf } ∧
      ∀ c, (s.setLink pp x).buf c = { s.buf c with qnext := (s.setLink pp x).link (some c) } := by
  cases pp with
  | none => exact ⟨rfl, fun c => rfl⟩
  | some b =>
    refine ⟨rfl, fun c => ?_⟩
    rcases eq_or_ne c b with rfl | hne
    · simp [Sys.setLink, Sys.link]
    · simp [Sys.setLink, Sys.link, hne]

/-- A call of `iderw` that finds something to do appends its buffer, and starts the disk if the
    queue was empty. -/
theorem iderw_spec [Fintype β] (h : Inv s) (hout : (s.place p).inside = none)
    (hlock : (s.buf b).lock = some p) (hw : Wants (s.buf b)) (hd1 : s.havedisk1 = true) :
    ∃ t, s.iderw p b = some t ∧ Inv t ∧ t.panicked = s.panicked ∧ t.mem = s.mem ∧
      t.served = s.served ∧ t.asked = s.asked ++ [(p, b)] ∧
      (t.place p).inside = some (s.asked.length, b) := by
  have hbq : b ∉ s.queue := by
    intro hb
    obtain ⟨n, q, hn, hle⟩ := mem_queue.mp hb
    have hq := h.owner n q b hn hle
    have hl := (h.inside q n b hq).2.1
    obtain rfl := Option.some.inj (hlock.symm.trans hl)
    exact absurd (hout.symm.trans hq) (by simp)
  have hle := h.served_le
  -- the queue that the walk goes through
  let s₁ : Sys β τ := { s with asked := s.asked ++ [(p, b)] }.setLink (some b) none
  have hlink₁ : s₁.link = Function.update s.link (some b) none := link_setLink (some b) none
  have hchain₁ : Linked.Chain s₁.link none s.queue := by
    rw [hlink₁]
    refine h.chain.congr (Function.update_of_ne (by simp) ..) fun c hc => ?_
    exact Function.update_of_ne (fun he : some c = some b => hbq (Option.some.inj he ▸ hc)) ..
  have hcard : s.queue.length < Fintype.card β + 1 := Nat.lt_succ_of_le h.nodup.length_le_card
  have hend := hchain₁.findEnd hcard
  let s₂ := s₁.setLink (Linked.last none s.queue) (some b)
  have hlink₂ : s₂.link = Function.update s₁.link (Linked.last none s.queue) (some b) :=
    link_setLink _ _
  have hchain₂ : Linked.Chain s₂.link none (s.queue ++ [b]) := by
    rw [hlink₂]
    exact hchain₁.append (by simp) h.nodup (by rw [hlink₁, Function.update_self]) (by simp) hbq
  obtain ⟨hs₁, hbuf₁⟩ := setLink_same (s := { s with asked := s.asked ++ [(p, b)] }) (some b) none
  obtain ⟨hs₂, hbuf₂⟩ := setLink_same (s := s₁) (Linked.last none s.queue) (some b)
  have hbuf : ∀ c, s₂.buf c = { s.buf c with qnext := s₂.link (some c) } := fun c => by
    rw [show s₂.buf c = _ from hbuf₂ c, show s₁.buf c = _ from hbuf₁ c]
  have hpend : (s.asked ++ [(p, b)]).drop s.served.length = s.pending ++ [(p, b)] :=
    List.drop_append_of_le_length hle
  have hqueue : ((s.asked ++ [(p, b)]).drop s.served.length).map Prod.snd = s.queue ++ [b] := by
    rw [hpend, List.map_append]
    rfl
  have hwants : ∀ c, Wants (s.buf c) → Wants (s₂.buf c) := fun c hc => by
    rw [hbuf c]
    exact ⟨hc.todo, hc.dev, hc.range⟩
  have hcmd : ∀ c, idestart (s₂.buf c) = idestart (s.buf c) := fun c => by
    rw [hbuf c]
    rfl
  have hdone : ¬ (s₂.buf b).Done := (hwants b hw).todo
  have hsame : s₂ = { s with
      asked := s.asked ++ [(p, b)], idequeue := s₂.idequeue, buf := s₂.buf } := by
    rw [show s₂ = _ from hs₂, show s₁ = _ from hs₁]
  have hplace : ∀ q, q ≠ p →
      Function.update s.place p (.asleep s.asked.length b) q = s.place q := fun q hq =>
    Function.update_of_ne hq ..
  have hinv : ∀ ctl, Head { s₂ with ctl := ctl } →
      Inv (Sys.goto { s₂ with ctl := ctl } p (.asleep s.asked.length b)) := by
    intro ctl hhead
    rw [hsame] at hhead ⊢
    refine ⟨?_, ?_, fun q m c hq => ?_, fun m q c hm hlm => ?_, fun c hc => ?_, hhead⟩
    · change Linked.Chain s₂.link none (((s.asked ++ [(p, b)]).drop s.served.length).map Prod.snd)
      rw [hqueue]
      exact hchain₂
    · change ((s.asked ++ [(p, b)]).take s.served.length).map Prod.snd = _
      rw [List.take_append_of_le_length hle]
      exact h.fifo
    · change (s.asked ++ [(p, b)])[m]? = _ ∧ (s₂.buf c).lock = _ ∧
        (_ → (s₂.buf c).Done ∧ _ = some (c, (s₂.buf c).data))
      rw [hbuf c]
      rcases eq_or_ne q p with rfl | hne
      · obtain ⟨rfl, rfl⟩ : s.asked.length = m ∧ b = c := by
          simpa [Sys.goto, Place.inside] using hq
        refine ⟨by simp, hlock, fun hlt => ?_⟩
        have hlt' : s.asked.length < s.served.length := hlt
        omega
      · have hq' : (s.place q).inside = some (m, c) := by
          rw [← hplace q hne]
          exact hq
        obtain ⟨hm, hrest⟩ := h.inside q m c hq'
        have hlt := (List.getElem?_eq_some_iff.mp hm).1
        exact ⟨by rw [List.getElem?_append_left hlt, hm], hrest⟩
    · change (s.asked ++ [(p, b)])[m]? = _ at hm
      change (Function.update s.place p (.asleep s.asked.length b) q).inside = _
      rcases lt_or_ge m s.asked.length with hlt | hge
      · rw [List.getElem?_append_left hlt] at hm
        have hq := h.owner m q c hm hlm
        have hne : q ≠ p := by
          rintro rfl
          exact absurd (hout.symm.trans hq) (by simp)
        rw [hplace q hne]
        exact hq
      · rw [List.getElem?_append_right hge] at hm
        obtain ⟨hz, hpb⟩ : m - s.asked.length = 0 ∧ (p, b) = (q, c) := by
          cases hk : m - s.asked.length with
          | zero => simpa [hk] using hm
          | succ k => simp [hk] at hm
        obtain ⟨rfl, rfl⟩ := Prod.mk.inj hpb
        obtain rfl : m = s.asked.length := by omega
        rw [Function.update_self]
        rfl
    · change c ∈ ((s.asked ++ [(p, b)]).drop s.served.length).map Prod.snd at hc
      rw [hqueue] at hc
      refine hwants c ?_
      rcases List.mem_append.mp hc with hc | hc
      · exact h.wants c hc
      · obtain rfl := List.mem_singleton.mp hc
        exact hw
  have hidequeue : s₂.idequeue = (s.queue ++ [b]).head? := hchain₂.head
  have hheld : ¬ (s.buf b).lock ≠ some p := fun hne => hne hlock
  have hpresent : ¬ ((s.buf b).dev ≠ 0 ∧ s.havedisk1 = false) := by simp [hd1]
  have hgo : ∀ s₃ : Sys β τ, (if s₂.idequeue = some b then s₂.start b else s₂) = s₃ →
      s.iderw p b = some (s₃.await p s.asked.length b) := by
    intro s₃ hs₃
    unfold Sys.iderw
    rw [if_neg hheld, if_neg hw.todo, if_neg hpresent]
    change (Linked.findEnd s₁.link (Fintype.card β + 1) none).map _ = _
    rw [hend, ← hs₃]
    rfl
  have hawait : ∀ ctl, ({ s₂ with ctl := ctl } : Sys β τ).await p s.asked.length b =
      Sys.goto { s₂ with ctl := ctl } p (.asleep s.asked.length b) := fun ctl => if_neg hdone
  have hfacts : ∀ ctl, Head { s₂ with ctl := ctl } →
      s.iderw p b = some (({ s₂ with ctl := ctl } : Sys β τ).await p s.asked.length b) →
      ∃ t, s.iderw p b = some t ∧ Inv t ∧ t.panicked = s.panicked ∧ t.mem = s.mem ∧
        t.served = s.served ∧ t.asked = s.asked ++ [(p, b)] ∧
        (t.place p).inside = some (s.asked.length, b) := by
    intro ctl hhead he
    refine ⟨_, he, ?_, ?_, ?_, ?_, ?_, ?_⟩ <;> rw [hawait]
    · exact hinv ctl hhead
    all_goals rw [hsame]; simp [Sys.goto, Place.inside]
  cases hq : s.queue with
  | nil =>
    rw [hq] at hidequeue
    obtain ⟨c, hc, -⟩ := idestart_spec hw s.disk
    have hstart : s₂.start b = { s₂ with ctl := .busy c } := by
      rw [Sys.start, hcmd b, hc]
    refine hfacts (.busy c) ⟨b, [], ?_, by rw [← hc]; exact hcmd b, ?_⟩ (hgo _ ?_)
    · rw [hsame]
      change ((s.asked ++ [(p, b)]).drop s.served.length).map Prod.snd = [b]
      rw [hqueue, hq]
      rfl
    · rw [hsame]
      have hhead := h.head
      unfold Head at hhead
      cases hctl : s.ctl with
      | idle =>
        rw [hctl] at hhead
        exact hhead.2
      | busy c' =>
        rw [hctl] at hhead
        exact hhead.choose_spec.choose_spec.2.2
      | done d =>
        rw [hctl] at hhead
        obtain ⟨e, rest, -, -, he, -⟩ := hhead
        exact absurd (hq.symm.trans he) (by simp)
    · have hfirst : s₂.idequeue = some b := hidequeue
      rw [if_pos hfirst, hstart]
  | cons c rest =>
    rw [hq] at hidequeue
    have hcb : ¬ s₂.idequeue = some b := by
      rw [hidequeue]
      intro he
      obtain rfl : c = b := Option.some.inj he
      exact hbq (hq ▸ List.mem_cons_self)
    refine hfacts s₂.ctl (?_ : Head s₂) (hgo _ (if_neg hcb))
    have hhead := h.head
    unfold Head at hhead ⊢
    have hctl₂ : s₂.ctl = s.ctl := by rw [hsame]
    have hqueue₂ : s₂.queue = c :: (rest ++ [b]) := by
      rw [hsame]
      change ((s.asked ++ [(p, b)]).drop s.served.length).map Prod.snd = _
      rw [hqueue, hq]
      rfl
    have hdisk₂ : s₂.disk = s.disk := by rw [hsame]
    have hmem₂ : s₂.mem = s.mem := by rw [hsame]
    rw [hctl₂, hdisk₂, hmem₂, hqueue₂]
    cases hctl : s.ctl with
    | idle =>
      rw [hctl] at hhead
      exact absurd (hq.symm.trans hhead.1) (by simp)
    | busy cmd =>
      rw [hctl] at hhead
      obtain ⟨e, rest', he, hcmd', hd⟩ := hhead
      obtain ⟨rfl, rfl⟩ : c = e ∧ rest = rest' := by simpa [hq] using he
      exact ⟨c, _, rfl, by rw [hcmd c]; exact hcmd', hd⟩
    | done d =>
      rw [hctl] at hhead
      obtain ⟨e, rest', cmd, disk, he, hcmd', hd⟩ := hhead
      obtain ⟨rfl, rfl⟩ : c = e ∧ rest = rest' := by simpa [hq] using he
      exact ⟨c, _, cmd, disk, rfl, by rw [hcmd c]; exact hcmd', hd⟩

/-! ### An interrupt -/

/-- After the interrupt of a request for `b`, before the next one is started. -/
def Sys.finished (s : Sys β τ) (b : β) (mem : ℕ → Block) (x : Buf β τ) : Sys β τ :=
  Sys.wakeup { s with
    ctl := .idle
    mem := mem
    served := s.served ++ [(b, x.data)]
    idequeue := x.qnext
    buf := Function.update s.buf b x } b

omit [DecidableEq τ] in
theorem finished_inside (mem : ℕ → Block) (x : Buf β τ) (q : τ) :
    ((s.finished b mem x).place q).inside = (s.place q).inside := by
  unfold Sys.finished Sys.wakeup
  dsimp only
  cases hq : s.place q with
  | out => rfl
  | ready m c => rfl
  | asleep m c =>
    dsimp only
    split <;> rfl

/-- The handler serves the head of the queue as `memide.c` does, and starts the next request. -/
theorem ideintr_eq {d : Block} {rest : List (τ × β)} (h : Inv s)
    (hpend : s.pending = (p, b) :: rest) {mem : ℕ → Block} {x : Buf β τ}
    (hmem : memiderw FSSIZE p s.mem (s.buf b) = some (mem, x))
    (hx : x = { s.buf b with
      data := if (s.buf b).dirty then (s.buf b).data else d, valid := true, dirty := false }) :
    s.ideintr d = (s.finished b mem x).startNext := by
  have hid : s.idequeue = some b := by
    rw [h.idequeue, Sys.queue, hpend]
    rfl
  have hasked : s.asked[s.served.length]? = some (p, b) := by
    have := congrArg List.head? hpend
    rwa [Sys.pending, List.head?_drop] at this
  have hserve : ({ s with ctl := .idle } : Sys β τ).serve b x.data =
      { s with ctl := .idle, mem := mem, served := s.served ++ [(b, x.data)] } := by
    unfold Sys.serve
    rw [hasked]
    simp only [hmem, Option.map_some, Option.getD_some]
  have hfinish : ({ s with ctl := .idle } : Sys β τ).finish b d = s.finished b mem x := by
    have hdata : x.data = if (s.buf b).dirty then (s.buf b).data else d := by rw [hx]
    have hnext : x.qnext = (s.buf b).qnext := by rw [hx]
    unfold Sys.finish
    dsimp only
    rw [← hdata, hserve]
    unfold Sys.finished Sys.setLink
    dsimp only
    rw [hnext, hdata, ← hx]
  unfold Sys.ideintr
  dsimp only
  split
  · rename_i hnone
    exact absurd (hid.symm.trans hnone) (by simp)
  · rename_i c hc
    obtain rfl : b = c := Option.some.inj (hid.symm.trans hc)
    rw [hfinish]

omit [DecidableEq τ] in
theorem pending_finished {l : List (τ × β)} (hpend : s.pending = (p, b) :: l) (mem : ℕ → Block)
    (x : Buf β τ) (ctl : Ctl) : Sys.pending { s.finished b mem x with ctl := ctl } = l := by
  change s.asked.drop (s.served ++ [(b, x.data)]).length = l
  rw [List.length_append, List.length_singleton, ← List.drop_drop]
  have hdrop : s.asked.drop s.served.length = (p, b) :: l := hpend
  rw [hdrop]
  rfl

omit [DecidableEq τ] in
/-- The queue without its head, whose process has what it asked for. -/
theorem Inv.finished (h : Inv s) {l : List (τ × β)} (hpend : s.pending = (p, b) :: l)
    (mem : ℕ → Block) {x : Buf β τ} (hdone : x.Done) (hlock : x.lock = (s.buf b).lock)
    (hnext : x.qnext = (s.buf b).qnext) (ctl : Ctl)
    (hhead : Head { s.finished b mem x with ctl := ctl }) :
    Inv { s.finished b mem x with ctl := ctl } := by
  have hq : s.queue = b :: l.map Prod.snd := by rw [Sys.queue, hpend]; rfl
  have hb : b ∉ l.map Prod.snd := (List.nodup_cons.mp (hq ▸ h.nodup)).1
  have hbuf : ∀ c, c ≠ b → Function.update s.buf b x c = s.buf c := fun c hc =>
    Function.update_of_ne hc ..
  have hlen : s.served.length < s.asked.length := by
    have := congrArg List.length hpend
    rw [Sys.pending, List.length_drop, List.length_cons] at this
    omega
  have hdrop : s.asked.drop s.served.length = (p, b) :: l := hpend
  have hasked : s.asked[s.served.length]? = some (p, b) := by
    rw [← List.head?_drop, hdrop]
    rfl
  have hqueue : (s.asked.drop (s.served ++ [(b, x.data)]).length).map Prod.snd = l.map Prod.snd :=
    congrArg (List.map Prod.snd) (pending_finished hpend mem x ctl)
  refine ⟨?_, ?_, fun q n c hin => ?_, fun n q c hn hle => ?_, fun c hc => ?_, hhead⟩
  · change Linked.Chain (Sys.link { s.finished b mem x with ctl := ctl }) none
      ((s.asked.drop (s.served ++ [(b, x.data)]).length).map Prod.snd)
    rw [hqueue]
    have hpop := (hq ▸ h.chain : Linked.Chain s.link none (b :: l.map Prod.snd)).pop
    have hlink : Sys.link { s.finished b mem x with ctl := ctl } =
        Function.update s.link none (s.link (some b)) := by
      funext pp
      cases pp with
      | none => rw [Function.update_self]; exact hnext
      | some c =>
        rw [Function.update_of_ne (by simp)]
        change (Function.update s.buf b x c).qnext = (s.buf c).qnext
        rcases eq_or_ne c b with rfl | hc
        · rw [Function.update_self, hnext]
        · rw [hbuf c hc]
    rw [hlink]
    exact hpop
  · change (s.asked.take (s.served ++ [(b, x.data)]).length).map Prod.snd =
      (s.served ++ [(b, x.data)]).map Prod.fst
    rw [List.length_append, List.length_singleton, List.take_add_one, hasked, List.map_append,
      h.fifo, List.map_append]
    rfl
  · have hin' : (s.place q).inside = some (n, c) := by
      rw [← finished_inside (b := b) mem x q]
      exact hin
    obtain ⟨hn, hl, hserved⟩ := h.inside q n c hin'
    change _ ∧ (Function.update s.buf b x c).lock = _ ∧ (n < (s.served ++ [(b, x.data)]).length →
      (Function.update s.buf b x c).Done ∧ (s.served ++ [(b, x.data)])[n]? =
        some (c, (Function.update s.buf b x c).data))
    rcases eq_or_ne c b with rfl | hc
    · rw [Function.update_self, hlock]
      have hpq : q = p := by
        have hp := (h.inside p _ c (h.owner _ p c hasked le_rfl)).2.1
        exact Option.some.inj (hl.symm.trans hp)
      subst hpq
      obtain rfl : n = s.served.length := by
        have := h.owner _ q c hasked le_rfl
        exact (Prod.mk.inj (Option.some.inj (hin'.symm.trans this))).1
      exact ⟨hn, hl, fun _ => ⟨hdone, by simp⟩⟩
    · rw [hbuf c hc]
      refine ⟨hn, hl, fun hlt => ?_⟩
      rw [List.length_append, List.length_singleton] at hlt
      rcases Nat.lt_succ_iff_lt_or_eq.mp hlt with hlt | rfl
      · obtain ⟨hd, hs⟩ := hserved hlt
        exact ⟨hd, by rw [List.getElem?_append_left hlt, hs]⟩
      · obtain ⟨-, rfl⟩ := Prod.mk.inj (Option.some.inj (hn.symm.trans hasked))
        exact absurd rfl hc
  · rw [show (Sys.place { s.finished b mem x with ctl := ctl } q).inside = _ from
      finished_inside mem x q]
    refine h.owner n q c hn ?_
    have : (s.served ++ [(b, x.data)]).length ≤ n := hle
    rw [List.length_append] at this
    omega
  · change c ∈ (s.asked.drop (s.served ++ [(b, x.data)]).length).map Prod.snd at hc
    rw [hqueue] at hc
    have hcb : c ≠ b := by
      rintro rfl
      exact hb hc
    change Wants (Function.update s.buf b x c)
    rw [hbuf c hcb]
    exact h.wants c (hq ▸ List.mem_cons_of_mem b hc)

/-- At its interrupt the head of the queue is served as `memide.c` would serve it then. -/
theorem ideintr_spec {d : Block} (h : Inv s) (hctl : s.ctl = .done d) :
    ∃ p b x, s.pending.head? = some (p, b) ∧
      memiderw FSSIZE p s.mem (s.buf b) = some ((s.ideintr d).mem, x) ∧ (s.ideintr d).buf b = x ∧
      (s.ideintr d).disk true = (s.ideintr d).mem ∧ (s.ideintr d).asked = s.asked ∧
      (s.ideintr d).served = s.served ++ [(b, x.data)] ∧
      (∀ c, c ≠ b → (s.ideintr d).buf c = s.buf c) ∧ (s.ideintr d).panicked = s.panicked ∧
      Inv (s.ideintr d) := by
  have hhead := h.head
  unfold Head at hhead
  rw [hctl] at hhead
  obtain ⟨b, rest, c, disk, hq, hc, hdisk, hperform⟩ := hhead
  obtain ⟨⟨p, b'⟩, l, hpend, hb', hl⟩ :
      ∃ x l, s.pending = x :: l ∧ x.2 = b ∧ l.map Prod.snd = rest := by
    unfold Sys.queue at hq
    exact List.map_eq_cons_iff.mp hq
  obtain rfl : b' = b := hb'
  have hasked : s.asked[s.served.length]? = some (p, b') := by
    have := congrArg List.head? hpend
    rwa [Sys.pending, List.head?_drop] at this
  have hlock := (h.inside p _ b' (h.owner _ p b' hasked le_rfl)).2.1
  have hw : Wants (s.buf b') := h.wants b' (hq ▸ List.mem_cons_self)
  obtain ⟨c', hc', hperform'⟩ := idestart_spec hw disk
  obtain rfl : c = c' := Option.some.inj (hc.symm.trans hc')
  rw [hperform'] at hperform
  -- what the controller has done is what the other driver does now
  obtain ⟨mem, x, hmem, hx, hdone, hmemdisk⟩ : ∃ mem x,
      memiderw FSSIZE p s.mem (s.buf b') = some (mem, x) ∧
      x = { s.buf b' with
        data := if (s.buf b').dirty then (s.buf b').data else d, valid := true, dirty := false } ∧
      x.Done ∧ s.disk true = mem := by
    refine ⟨_, _, memiderw_wants hw hlock, ?_, ⟨rfl, rfl⟩, ?_⟩
    · cases hd : (s.buf b').dirty with
      | true => rfl
      | false =>
        rw [hd] at hperform
        obtain ⟨-, rfl⟩ := Prod.mk.inj hperform
        rw [hdisk]
    · cases hd : (s.buf b').dirty with
      | true =>
        rw [hd] at hperform
        obtain ⟨hs, -⟩ := Prod.mk.inj hperform
        rw [← hs, ← hdisk]
        exact Function.update_self ..
      | false =>
        rw [hd] at hperform
        obtain ⟨hs, -⟩ := Prod.mk.inj hperform
        rw [← hs, hdisk]
        rfl
  have he := ideintr_eq h hpend hmem hx
  have hfin := fun ctl => h.finished hpend mem hdone (by rw [hx]) (by rw [hx]) ctl
  have hrest : ∀ ctl, Sys.queue { s.finished b' mem x with ctl := ctl } = rest := fun ctl => by
    rw [Sys.queue, pending_finished hpend, hl]
  have hnext : (s.finished b' mem x).idequeue = rest.head? := by
    have := hq ▸ h.chain
    cases this with
    | cons _ ht =>
      rw [← ht.head]
      change x.qnext = (s.buf b').qnext
      rw [hx]
  rw [he]
  cases hr : rest with
  | nil =>
    have hstay : (s.finished b' mem x).startNext = s.finished b' mem x := by
      unfold Sys.startNext
      rw [hnext, hr]
      rfl
    rw [hstay]
    refine ⟨p, b', x, by rw [hpend]; rfl, hmem, Function.update_self .., hmemdisk, rfl, rfl,
      fun c hcb => Function.update_of_ne hcb .., rfl, hfin .idle ⟨?_, hmemdisk⟩⟩
    exact hr ▸ hrest .idle
  | cons e rest' =>
    have heq : e ∈ s.queue := hq ▸ List.mem_cons_of_mem _ (hr ▸ List.mem_cons_self)
    have heb : e ≠ b' := by
      rintro rfl
      exact (List.nodup_cons.mp (hq ▸ h.nodup)).1 (hr ▸ List.mem_cons_self)
    have hbuf : (s.finished b' mem x).buf e = s.buf e := Function.update_of_ne heb ..
    obtain ⟨cmd, hcmd, -⟩ := idestart_spec (h.wants e heq) s.disk
    have hgo : (s.finished b' mem x).startNext = { s.finished b' mem x with ctl := .busy cmd } := by
      unfold Sys.startNext
      rw [hnext, hr]
      simp only [List.head?_cons, Sys.start]
      rw [hbuf, hcmd]
    rw [hgo]
    refine ⟨p, b', x, by rw [hpend]; rfl, hmem, Function.update_self .., hmemdisk, rfl, rfl,
      fun c hcb => Function.update_of_ne hcb .., rfl, hfin (.busy cmd) ⟨e, rest', ?_, ?_, hmemdisk⟩⟩
    · exact hr ▸ hrest (.busy cmd)
    · rw [← hcmd, ← hbuf]

/-! ### Runs -/

/-- `iderw` is called with a locked buffer, for a block of disk 1. -/
def Proper (s : Sys β τ) : Act β τ → Prop
  | .iderw p b => (s.buf b).lock = some p ∧ (s.buf b).dev = 1 ∧
      (s.buf b).blockno.toNat < FSSIZE ∧ s.havedisk1 = true
  | _ => True

instance (s : Sys β τ) : (a : Act β τ) → Decidable (Proper s a)
  | .iderw _ _ => inferInstanceAs (Decidable (_ ∧ _ ∧ _ ∧ _))
  | .run _ | .rouse _ | .perform | .ideintr | .acquiresleep _ _ | .releasesleep _ _
  | .edit _ _ _ _ _ _ => isTrue trivial

/-- The two drivers do the same. A call panics in both or is queued; an interrupt serves the oldest
    request as `memide.c` would at that moment; a call comes back, with `B_VALID` set and `B_DIRTY`
    clear, to what was served for it; and nothing else counts. -/
def Agrees [Fintype β] (s : Sys β τ) (a : Act β τ) : Prop :=
  match a with
  | .iderw p b => s.place p = .out → s.panicked = false → ∃ t, s.Step (.iderw p b) t ∧
      (t.panicked = true ↔ memiderw FSSIZE p s.mem (s.buf b) = none) ∧ t.mem = s.mem ∧
      t.served = s.served ∧ (t.panicked = false → t.asked = s.asked ++ [(p, b)] ∧
        (t.place p).inside = some (s.asked.length, b))
  | .run p => ∀ t n b, s.Step (.run p) t → s.place p = .ready n b → t.place p = .out →
      s.asked[n]? = some (p, b) ∧ s.served[n]? = some (b, (t.buf b).data) ∧
        (t.buf b).valid = true ∧ (t.buf b).dirty = false ∧ t.mem = s.mem
  | .ideintr => ∀ t, s.Step .ideintr t → ∃ p b x, s.pending.head? = some (p, b) ∧
      memiderw FSSIZE p s.mem (s.buf b) = some (t.mem, x) ∧ t.buf b = x ∧ t.disk true = t.mem ∧
      t.served = s.served ++ [(b, x.data)] ∧ (∀ c, c ≠ b → t.buf c = s.buf c) ∧
      t.panicked = false
  | a => ∀ t, s.Step a t → t.mem = s.mem ∧ t.served = s.served ∧ t.asked = s.asked ∧
      t.panicked = false

variable [Fintype β]

/-- A call of `iderw`. -/
theorem Inv.request (h : Inv s) (hplace : (s.place p).inside = none)
    (hproper : Proper s (.iderw p b)) :
    ∃ t, s.iderw p b = some t ∧ Inv t ∧
      (t.panicked = true ↔ s.panicked = true ∨ memiderw FSSIZE p s.mem (s.buf b) = none) ∧
      t.mem = s.mem ∧ t.served = s.served ∧ (t.panicked = false → t.asked = s.asked ++ [(p, b)] ∧
        (t.place p).inside = some (s.asked.length, b)) := by
  obtain ⟨hlock, hdev, hrange, hd1⟩ := hproper
  by_cases hdone : (s.buf b).Done
  · have hheld : ¬ (s.buf b).lock ≠ some p := fun hne => hne hlock
    refine ⟨{ s with panicked := true }, ?_, h.congr rfl rfl rfl rfl (fun _ => rfl) h.head, ?_, rfl,
      rfl, fun hp => absurd hp (by simp)⟩
    · unfold Sys.iderw
      rw [if_neg hheld, if_pos hdone]
    · unfold memiderw
      rw [if_neg hheld, if_pos hdone]
      simp
  · have hw : Wants (s.buf b) := ⟨hdone, hdev, hrange⟩
    obtain ⟨t, ht, hinv, hpan, hmem, hserved, hasked, hin⟩ := iderw_spec h hplace hlock hw hd1
    refine ⟨t, ht, hinv, ?_, hmem, hserved, fun _ => ⟨hasked, hin⟩⟩
    rw [hpan, memiderw_wants hw hlock]
    simp

theorem inv_step {a : Act β τ} (h : Inv s) (hproper : Proper s a) (hst : s.Step a t) : Inv t := by
  replace hst := (Option.ite_none_left_eq_some.mp hst).2
  cases a with
  | iderw p b =>
    dsimp only at hst
    cases hp : s.place p with
    | out =>
      rw [hp] at hst
      obtain ⟨u, hu, hinv, -⟩ := h.request (by rw [hp]; rfl) hproper
      obtain rfl := Option.some.inj (hu.symm.trans hst)
      exact hinv
    | ready | asleep =>
      rw [hp] at hst
      exact absurd hst (by simp)
  | run p =>
    dsimp only at hst
    cases hp : s.place p with
    | ready n b =>
      rw [hp] at hst
      obtain rfl := Option.some.inj hst
      exact inv_await h (by rw [hp]; rfl)
    | out | asleep =>
      rw [hp] at hst
      exact absurd hst (by simp)
  | rouse p =>
    dsimp only at hst
    cases hp : s.place p with
    | asleep n b =>
      rw [hp] at hst
      obtain rfl := Option.some.inj hst
      refine h.congr rfl rfl rfl rfl (fun q => ?_) h.head
      unfold Sys.goto
      rcases eq_or_ne q p with rfl | hne
      · simp only [Function.update_self, hp]
        rfl
      · simp [hne]
    | out | ready =>
      rw [hp] at hst
      exact absurd hst (by simp)
  | perform =>
    dsimp only at hst
    cases hctl : s.ctl with
    | busy c =>
      rw [hctl] at hst
      obtain rfl := Option.some.inj hst
      have hhead := h.head
      unfold Head at hhead
      rw [hctl] at hhead
      obtain ⟨b, rest, hq, hc, hdisk⟩ := hhead
      exact h.congr rfl rfl rfl rfl (fun _ => rfl) ⟨b, rest, c, s.disk, hq, hc, hdisk, rfl⟩
    | idle | done =>
      rw [hctl] at hst
      exact absurd hst (by simp)
  | ideintr =>
    dsimp only at hst
    cases hctl : s.ctl with
    | done d =>
      rw [hctl] at hst
      obtain rfl := Option.some.inj hst
      obtain ⟨_, _, _, -, -, -, -, -, -, -, -, hinv⟩ := ideintr_spec h hctl
      exact hinv
    | idle | busy =>
      rw [hctl] at hst
      exact absurd hst (by simp)
  | acquiresleep p b =>
    obtain ⟨⟨hlock, -⟩, hst⟩ := Option.ite_none_right_eq_some.mp hst
    obtain rfl := Option.some.inj hst
    refine h.elsewhere (fun q n hq => ?_) rfl
    exact absurd (hlock.symm.trans (h.inside q n b hq).2.1) (by simp)
  | releasesleep p b =>
    obtain ⟨⟨hlock, hout⟩, hst⟩ := Option.ite_none_right_eq_some.mp hst
    obtain rfl := Option.some.inj hst
    refine h.elsewhere (fun q n hq => ?_) rfl
    obtain rfl := Option.some.inj (hlock.symm.trans (h.inside q n b hq).2.1)
    exact absurd (hout.symm.trans hq) (by simp)
  | edit b valid dirty dev blockno data =>
    obtain ⟨hbusy, hst⟩ := Option.ite_none_left_eq_some.mp hst
    obtain rfl := Option.some.inj hst
    refine h.elsewhere (fun q n hq => hbusy ?_) rfl
    unfold Sys.busy
    rw [(h.inside q n b hq).2.1]
    simp [hq]

omit [DecidableEq τ] [DecidableEq β] [Fintype β] in
theorem inv_ideinit (buf : β → Buf β τ) (havedisk1 : Bool) (disk : Bool → ℕ → Block) :
    Inv (Sys.ideinit buf havedisk1 disk) where
  chain := .nil rfl
  fifo := rfl
  inside := fun _ _ _ h => absurd h (by simp [Sys.ideinit, Place.inside])
  owner := fun _ _ _ h => absurd h (by simp [Sys.ideinit])
  wants := fun _ h => absurd h (by simp [Sys.ideinit, Sys.queue, Sys.pending])
  head := ⟨rfl, rfl⟩

/-- In order, the driver agrees with the other one at every step. -/
theorem Inv.agrees {a : Act β τ} (h : Inv s) (hproper : Proper s a) : Agrees s a := by
  have hquiet : ∀ {a : Act β τ} {t : Sys β τ}, s.Step a t → s.panicked = false := fun hst => by
    simpa using (Option.ite_none_left_eq_some.mp hst).1
  unfold Agrees
  cases a with
  | iderw p b =>
    intro hp hq
    obtain ⟨t, ht, -, hpan, hmem, hserved, hasked⟩ := h.request (by rw [hp]; rfl) hproper
    refine ⟨t, ?_, by simpa [hq] using hpan, hmem, hserved, hasked⟩
    unfold Sys.Step Sys.next
    simp only [hq, hp]
    exact ht
  | run p =>
    intro t n b hst hp hout
    replace hst := (Option.ite_none_left_eq_some.mp hst).2
    dsimp only at hst
    rw [hp] at hst
    obtain rfl := Option.some.inj hst
    obtain ⟨hasked, -, hserved⟩ := h.inside p n b (by rw [hp]; rfl)
    unfold Sys.await at hout ⊢
    split at hout
    · rename_i hdone
      rw [if_pos hdone]
      have hlt : n < s.served.length := by
        by_contra hge
        exact (h.wants b (mem_queue.mpr ⟨n, p, hasked, not_lt.mp hge⟩)).todo hdone
      exact ⟨hasked, (hserved hlt).2, hdone.1, hdone.2, rfl⟩
    · simp [Sys.goto] at hout
  | ideintr =>
    intro t hst
    have hq := hquiet hst
    replace hst := (Option.ite_none_left_eq_some.mp hst).2
    dsimp only at hst
    cases hctl : s.ctl with
    | done d =>
      rw [hctl] at hst
      obtain rfl := Option.some.inj hst
      obtain ⟨p, b, x, hpend, hmem, hbuf, hdisk, -, hserved, hother, hpan, -⟩ :=
        ideintr_spec h hctl
      exact ⟨p, b, x, hpend, hmem, hbuf, hdisk, hserved, hother, hpan.trans hq⟩
    | idle | busy =>
      rw [hctl] at hst
      exact absurd hst (by simp)
  | rouse p =>
    intro t hst
    have hq := hquiet hst
    replace hst := (Option.ite_none_left_eq_some.mp hst).2
    dsimp only at hst
    cases hp : s.place p with
    | asleep n b =>
      rw [hp] at hst
      obtain rfl := Option.some.inj hst
      exact ⟨rfl, rfl, rfl, hq⟩
    | out | ready =>
      rw [hp] at hst
      exact absurd hst (by simp)
  | perform =>
    intro t hst
    have hq := hquiet hst
    replace hst := (Option.ite_none_left_eq_some.mp hst).2
    dsimp only at hst
    cases hctl : s.ctl with
    | busy c =>
      rw [hctl] at hst
      obtain rfl := Option.some.inj hst
      exact ⟨rfl, rfl, rfl, hq⟩
    | idle | done =>
      rw [hctl] at hst
      exact absurd hst (by simp)
  | acquiresleep p b | releasesleep p b =>
    intro t hst
    have hq := hquiet hst
    replace hst := (Option.ite_none_left_eq_some.mp hst).2
    obtain rfl := Option.some.inj (Option.ite_none_right_eq_some.mp hst).2
    exact ⟨rfl, rfl, rfl, hq⟩
  | edit b valid dirty dev blockno data =>
    intro t hst
    have hq := hquiet hst
    replace hst := (Option.ite_none_left_eq_some.mp hst).2
    obtain rfl := Option.some.inj (Option.ite_none_left_eq_some.mp hst).2
    exact ⟨rfl, rfl, rfl, hq⟩

end

/-- Two buffers for block 3 of disk 1, held by two processes: one with sevens to write, the other to
    be read. -/
def twoBuffers (b : Bool) : Buf Bool Bool where
  valid := b
  dirty := b
  dev := 1
  blockno := 3
  lock := some b
  qnext := none
  data := fun _ => if b then 7 else 0

/-- The write is queued before the read; the disk does both. -/
def writeThenRead : List (Act Bool Bool) :=
  [.iderw true true, .iderw false false, .perform, .ideintr, .run true, .perform, .ideintr,
    .run false]

end Xv6.Ide
