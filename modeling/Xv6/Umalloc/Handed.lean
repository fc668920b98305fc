import Xv6.Schemes.Run
import Xv6.Umalloc.Malloc

/-! @src umalloc.c sysproc.c proc.c | name:malloc and free in any order | layer:proof

    A process that calls `malloc` and `free` and writes to its own data and to what it has been given.
    The units of a request are computed modulo 2^32, and the kernel takes the bytes for an `int`. As
    long as neither wraps, what is handed out is the process's and nothing else is there. -/

namespace Xv6.Umalloc
open Xv6.Schemes
open Xv6.Schemes.Bytes (Mem write write_other Within)
open Xv6.Schemes.Blocks (Block)
open Xv6.Schemes.X86 (Word)
open Xv6.Memory (PGSIZE KERNBASE pageUp)
open Heap

/-- What a call of `malloc` has handed out: the address, and the bytes asked for. -/
structure Handed where
  ap : Word
  nbytes : Word
  deriving DecidableEq

namespace Handed

def payload (x : Handed) : Block := ⟨x.ap.toNat, x.nbytes.toNat⟩

def header (x : Handed) : Block := Heap.header (x.ap.toNat - 8)

/-- What the allocator has set aside for it. -/
def block (x : Handed) : Block := ⟨x.ap.toNat - 8, 8 * (nunits x.nbytes).toNat⟩

end Handed

structure Process where
  heap : Heap
  live : List Handed

/-- The bytes that are not the allocator's: those handed out, and the program's own. -/
def Process.Own (p : Process) (base lo : ℕ) (a : Word) : Prop :=
  (∃ x ∈ p.live, a.toNat ∈ x.payload.cells) ∨ (a.toNat < lo ∧ a.toNat ∉ (header base).cells)

/-- What the process does. `room` says what the kernel has during the call. -/
inductive Call
  | malloc (room : Word → Bool) (nbytes : Word)
  | free (x : Handed)
  | store (a : Word) (v : UInt8)

inductive Step (base lo : ℕ) : Process → Call → Process → Prop
  | malloc {p : Process} {room : Word → Bool} {nbytes ap : Word} {h : Heap} :
      Returns (fun fuel => p.heap.malloc (addr base) room fuel nbytes) (ap, h) →
      Step base lo p (.malloc room nbytes) ⟨h, if ap = 0 then p.live else ⟨ap, nbytes⟩ :: p.live⟩
  | free {p : Process} {x : Handed} {h : Heap} :
      x ∈ p.live → Returns (fun fuel => p.heap.free fuel x.ap) h →
      Step base lo p (.free x) ⟨h, p.live.erase x⟩
  | store {p : Process} {a : Word} {v : UInt8} :
      p.Own base lo a →
      Step base lo p (.store a v) ⟨{ p.heap with mem := write p.heap.mem a [v] }, p.live⟩

/-- The blocks that `freep` leads to. -/
structure Heap.Free (h : Heap) (b : Block) : Prop where
  ring : Relation.ReflTransGen (fun x y => h.next x = y) h.freep.toNat b.addr
  len : b.len = 8 * h.units b.addr

/-- What has been handed out is the process's, and there is nothing else: no other block, no header,
    no free block. -/
structure Sound (lo : ℕ) (p : Process) : Prop where
  owned : ∀ x ∈ p.live, ∀ a ∈ x.payload.cells,
    lo ≤ a ∧ a < p.heap.sz.toNat ∧ p.heap.mapped (a / PGSIZE) = true
  apart : p.live.Pairwise fun x y => x.payload.Apart y.payload
  headers : ∀ x ∈ p.live, ∀ y ∈ p.live, x.payload.Apart y.header
  free : ∀ x ∈ p.live, ∀ b, p.heap.Free b → x.payload.Apart b ∧ x.payload.Apart (header b.addr)

/-- The units of the request do not wrap, nor are its bytes negative as an `int`. -/
def Fits (nbytes : Word) : Prop := nbytes.toNat ≤ 2 ^ 31 - 16

/-- The calls return, and `malloc` does not take anything from the process. -/
structure Serves (base : ℕ) (p : Process) : Prop where
  malloc : ∀ room nbytes, Fits nbytes → ∃ ap h,
    Returns (fun fuel => p.heap.malloc (addr base) room fuel nbytes) (ap, h) ∧ Extends p.heap h
  free : ∀ x ∈ p.live, ∃ h, Returns (fun fuel => p.heap.free fuel x.ap) h

/-- The request fits, if the call is one. -/
def Call.Fits : Call → Prop
  | .malloc _ nbytes => Umalloc.Fits nbytes
  | _ => True

/-- A process that has not called `malloc`, and has memory up to `lo`. -/
structure Fresh (h : Heap) (base lo : ℕ) : Prop where
  freep : h.freep = 0
  sz : h.sz.toNat = lo
  grown : Grown h base lo

/-- Between two calls. -/
structure Inv (base lo : ℕ) (p : Process) : Prop where
  ready : Ready p.heap base lo (p.live.map Handed.block)
  fits : ∀ x ∈ p.live, Fits x.nbytes ∧ 8 ≤ x.ap.toNat

section

variable {base lo : ℕ} {h : Heap} {l : List Block} {b : Block} {p t : Process} {x y : Handed} {nbytes : Word}

theorem Returns.unique {α : Type*} {f : ℕ → Option α} {r r' : α} (hr : Returns f r)
    (hr' : Returns f r') : r = r' := by
  obtain ⟨n, hn⟩ := hr
  obtain ⟨n', hn'⟩ := hr'
  exact Option.some.inj ((hn _ (le_max_left n n')).symm.trans (hn' _ (le_max_right n n')))

theorem ne_zero {ap : Word} {n : ℕ} (hap : ap.toNat = n + 8) : ap ≠ 0 := by
  rintro rfl
  exact absurd hap (by simp)

theorem Fits.nunits (hf : Fits nbytes) :
    nbytes.toNat + 8 ≤ 8 * (nunits nbytes).toNat ∧ (nunits nbytes).toNat < 2 ^ 28 := by
  unfold Fits at hf
  have hadd : (nbytes + 7).toNat = nbytes.toNat + 7 := by bv_omega
  rw [toNat_nunits, hadd]
  omega

/-- The payload is what follows the header in the block. -/
theorem Inv.payload (hi : Inv base lo p) (hx : x ∈ p.live) :
    x.payload.addr = x.block.addr + 8 ∧ x.payload.stop ≤ x.block.stop := by
  obtain ⟨hfits, h8⟩ := hi.fits x hx
  have hunits := hfits.nunits
  unfold Handed.payload Handed.block Block.stop
  dsimp only
  omega

/-- The free blocks are those of the list. -/
theorem FreeList.mem_of_free (hf : FreeList h base l) (hb : h.Free b) : b ∈ baseBlock base :: l := by
  have hclosed : ∀ y, Relation.ReflTransGen (fun x y => h.next x = y) h.freep.toNat y →
      ∃ q ∈ baseBlock base :: l, q.addr = y := by
    intro y hring
    induction hring with
    | refl =>
      obtain ⟨q, hq, hfreep⟩ := hf.freep
      have hqlt := hf.lt hq
      exact ⟨q, hq, by rw [hfreep, toNat_addr (by omega)]⟩
    | tail _ hstep ih =>
      obtain ⟨q, hq, haddr⟩ := ih
      obtain ⟨m₁, m₂, hsplit⟩ := List.append_of_mem hq
      rw [← haddr, hf.next hsplit] at hstep
      cases m₂ with
      | nil => exact ⟨baseBlock base, List.mem_cons_self, hstep⟩
      | cons a m₂ =>
        exact ⟨a, hsplit ▸ List.mem_append_right _ (List.mem_cons_of_mem q List.mem_cons_self), hstep⟩
  obtain ⟨q, hq, haddr⟩ := hclosed b.addr hb.ring
  have hlen : q.len = b.len := by
    rw [hb.len, ← haddr, hf.sizes q hq]
  have hqb : q = b := by
    cases q
    cases b
    exact congrArg₂ Block.mk haddr hlen
  exact hqb ▸ hq

/-! ### Between two calls -/

/-- What has been handed out is apart from all headers. -/
theorem Inv.headers (hi : Inv base lo p) (ha : Arena p.heap base lo l (p.live.map Handed.block))
    (hx : x ∈ p.live) :
    ∀ b ∈ baseBlock base :: (l ++ p.live.map Handed.block), x.payload.Apart (header b.addr) := by
  intro b hb
  have hpx := hi.payload hx
  have htx := ha.taken _ (List.mem_map_of_mem hx)
  have hheader : (header b.addr).addr = b.addr ∧ (header b.addr).stop = b.addr + 8 := ⟨rfl, rfl⟩
  have hstop : b.stop = b.addr + b.len := rfl
  unfold Block.Apart
  rcases List.mem_cons.mp hb with rfl | hb
  · have habove := htx.above
    have hend : (header (baseBlock base).addr).stop = base + 8 := rfl
    omega
  · have h8 := ha.eight hb
    rcases List.mem_append.mp hb with hb | hb
    · have hapart := htx.apart b hb
      unfold Block.Apart at hapart
      omega
    · obtain ⟨y, hy, rfl⟩ := List.mem_map.mp hb
      by_cases hxy : x = y
      · subst hxy
        omega
      · have hsymm : Std.Symm fun x y : Handed => x.block.Apart y.block := ⟨fun _ _ hab => hab.symm⟩
        have hapart := (List.pairwise_map.mp ha.apart).forall hx hy hxy
        unfold Block.Apart at hapart
        omega

theorem Inv.sound (hi : Inv base lo p) : Sound lo p := by
  rcases hi.ready with ⟨-, hnil, -⟩ | ⟨l, ha⟩
  · have hlive : p.live = [] := List.map_eq_nil_iff.mp hnil
    refine ⟨fun x hx => ?_, hlive ▸ .nil, fun x hx => ?_, fun x hx => ?_⟩
    all_goals
      rw [hlive] at hx
      exact absurd hx List.not_mem_nil
  · have hin : ∀ x ∈ p.live, x.block ∈ l ++ p.live.map Handed.block := fun x hx =>
      List.mem_append_right l (List.mem_map_of_mem hx)
    refine ⟨fun x hx a hax => ?_, (List.pairwise_map.mp ha.apart).imp_of_mem fun hx hy hxy => ?_,
      fun x hx y hy => ?_, fun x hx b hb => ?_⟩
    · have hpay := hi.payload hx
      have hlo := ha.above _ (hin x hx)
      have hstop := ha.below _ (hin x hx)
      have hcell : a ∈ x.block.cells := ⟨by have := hax.1; omega, hax.2.trans_le hpay.2⟩
      exact ⟨hlo.trans hcell.1, hcell.2.trans_le hstop, (ha.grown.mapped hlo hstop).2 a hcell⟩
    · have hpx := hi.payload hx
      have hpy := hi.payload hy
      unfold Block.Apart at hxy ⊢
      omega
    · exact hi.headers ha hx _ (List.mem_cons_of_mem _ (hin y hy))
    · have hbin := ha.list.mem_of_free hb
      have hpx := hi.payload hx
      have htx := ha.taken _ (List.mem_map_of_mem hx)
      refine ⟨?_, hi.headers ha hx b ?_⟩
      · unfold Block.Apart
        rcases List.mem_cons.mp hbin with rfl | hbl
        · have habove := htx.above
          have hstop : (baseBlock base).stop = base := rfl
          omega
        · have hapart := htx.apart b hbl
          unfold Block.Apart at hapart
          omega
      · rcases List.mem_cons.mp hbin with rfl | hbl
        · exact List.mem_cons_self
        · exact List.mem_cons_of_mem _ (List.mem_append_left _ hbl)

/-! ### The calls -/

/-- `malloc` of a request that fits. -/
theorem Inv.malloc (hi : Inv base lo p) (room : Word → Bool) (hfits : Fits nbytes) :
    ∃ ap h, Returns (fun fuel => p.heap.malloc (addr base) room fuel nbytes) (ap, h) ∧
      Extends p.heap h ∧ Inv base lo ⟨h, if ap = 0 then p.live else ⟨ap, nbytes⟩ :: p.live⟩ := by
  obtain ⟨ap, h, hret, he, hres⟩ := malloc_spec hi.ready room hfits.nunits.2
  refine ⟨ap, h, hret, he, ?_⟩
  rcases hres with ⟨hap, hready, -⟩ | ⟨l, b, hap, hlen, ha⟩
  · rw [if_pos hap]
    exact ⟨hready, hi.fits⟩
  · have hne : ap ≠ 0 := ne_zero hap
    have hblock : Handed.block ⟨ap, nbytes⟩ = b := by
      unfold Handed.block
      rw [hap, ← hlen, Nat.add_sub_cancel]
    rw [if_neg hne]
    refine ⟨.inr ⟨l, ?_⟩, List.forall_mem_cons.mpr ⟨⟨hfits, by dsimp only; omega⟩, hi.fits⟩⟩
    rw [List.map_cons, hblock]
    exact ha

/-- `free` of a block handed out. -/
theorem Inv.free (hi : Inv base lo p) (hx : x ∈ p.live) :
    ∃ h, Returns (fun fuel => p.heap.free fuel x.ap) h ∧ Inv base lo ⟨h, p.live.erase x⟩ := by
  rcases hi.ready with ⟨-, hnil, -⟩ | ⟨l, ha⟩
  · rw [List.map_eq_nil_iff.mp hnil] at hx
    exact absurd hx List.not_mem_nil
  · have hperm := (List.perm_cons_erase hx).map Handed.block
    obtain ⟨h, hfree, ha', -⟩ := (ha.perm hperm).free
    have h8 := (hi.fits x hx).2
    have hap : addr (x.block.addr + 8) = x.ap := by
      unfold Handed.block
      dsimp only
      rw [Nat.sub_add_cancel h8, addr_toNat]
    rw [hap] at hfree
    exact ⟨h, ⟨_, hfree⟩, .inr ⟨_, ha'⟩, fun y hy => hi.fits y (List.mem_of_mem_erase hy)⟩

/-- The process leaves the headers alone. -/
theorem Inv.store {a : Word} (hi : Inv base lo p) (ha : p.Own base lo a) (v : UInt8) :
    Inv base lo ⟨{ p.heap with mem := write p.heap.mem a [v] }, p.live⟩ := by
  refine ⟨?_, hi.fits⟩
  have he : Extends p.heap { p.heap with mem := write p.heap.mem a [v] } := ⟨le_rfl, fun _ hv => hv⟩
  have hgrown : Grown p.heap base lo → Grown { p.heap with mem := write p.heap.mem a [v] } base lo :=
    fun hg => ⟨hg.pos, hg.low, hg.le, hg.max, hg.header, hg.pages⟩
  rcases hi.ready with ⟨hfreep, hnil, hg⟩ | ⟨l, harena⟩
  · exact .inl ⟨hfreep, hnil, hgrown hg⟩
  · refine .inr ⟨l, harena.congr he (hgrown harena.grown) rfl fun b hb => ?_⟩
    have hout : ¬ (b.addr ≤ a.toNat ∧ a.toNat < b.addr + 8) := by
      rcases ha with ⟨x, hx, hlow, hhigh⟩ | ⟨hlow, hbase⟩
      · have hapart := hi.headers harena hx b hb
        unfold Block.Apart at hapart
        have hheader : (header b.addr).addr = b.addr ∧ (header b.addr).stop = b.addr + 8 := ⟨rfl, rfl⟩
        omega
      · rcases List.mem_cons.mp hb with rfl | hb
        · exact hbase
        · have habove := harena.above b hb
          omega
    refine header_congr fun x hx₁ hx₂ => write_other ?_
    have hlt : x < 2 ^ 32 := by
      have hsz := harena.grown.sz_lt
      rcases List.mem_cons.mp hb with rfl | hb
      · have hlo := harena.grown.low
        have hle := harena.grown.le
        dsimp only at hx₂
        omega
      · have h8 := harena.eight hb
        have hstop := harena.below b hb
        unfold Block.stop at hstop
        omega
    rw [← addr_toNat a, List.length_singleton, within_addr (by omega) hlt]
    omega

/-! ### Runs -/

theorem Fresh.inv (hf : Fresh h base lo) : Inv base lo ⟨h, []⟩ :=
  ⟨.inl ⟨hf.freep, rfl, hf.grown⟩, fun _ hx => absurd hx List.not_mem_nil⟩

theorem Inv.step {c : Call} (hi : Inv base lo p) (hc : c.Fits) (hs : Step base lo p c t) :
    Inv base lo t := by
  cases hs with
  | malloc hret =>
    obtain ⟨ap, h, hret', -, hi'⟩ := hi.malloc _ hc
    obtain ⟨rfl, rfl⟩ := Prod.mk.inj (hret.unique hret')
    exact hi'
  | free hx hret =>
    obtain ⟨h, hret', hi'⟩ := hi.free hx
    obtain rfl := hret.unique hret'
    exact hi'
  | store ha => exact hi.store ha _

theorem Inv.serves (hi : Inv base lo p) : Serves base p where
  malloc room nbytes hfits := by
    obtain ⟨ap, h, hret, he, -⟩ := hi.malloc room hfits
    exact ⟨ap, h, hret, he⟩
  free x hx := by
    obtain ⟨h, hret, -⟩ := hi.free hx
    exact ⟨h, hret⟩

/-- A request that is granted fits, or what it is promised is not there. -/
theorem Sound.fits {h₀ : Heap} {room : Word → Bool} {ap : Word} {live : List Handed} (hlo : PGSIZE ≤ lo)
    (hmax : h₀.sz < KERNBASE)
    (hret : Returns (fun fuel => h₀.malloc (addr base) room fuel nbytes) (ap, h))
    (hs : Sound lo ⟨h, ⟨ap, nbytes⟩ :: live⟩) : Fits nbytes := by
  obtain ⟨n, hret⟩ := hret
  have hlt : h.sz.toNat < 2 ^ 31 := malloc_max hmax (hret n le_rfl)
  have hpage : PGSIZE = 4096 := rfl
  by_contra hbig
  unfold Fits at hbig
  have hfirst : ap.toNat ∈ (Handed.payload ⟨ap, nbytes⟩).cells := by
    refine ⟨le_rfl, ?_⟩
    change ap.toNat < ap.toNat + nbytes.toNat
    omega
  have hlast : ap.toNat + (nbytes.toNat - 1) ∈ (Handed.payload ⟨ap, nbytes⟩).cells := by
    refine ⟨Nat.le_add_right _ _, ?_⟩
    change ap.toNat + (nbytes.toNat - 1) < ap.toNat + nbytes.toNat
    omega
  have hown₁ := (hs.owned _ List.mem_cons_self _ hfirst).1
  have hown₂ := (hs.owned _ List.mem_cons_self _ hlast).2.1
  dsimp only at hown₂
  omega

end

/-- A process with one page that has not called `malloc`. -/
def onePage : Heap where
  mem _ := 0
  mapped v := v = 0
  sz := 4096
  freep := 0

theorem onePage_fresh : Fresh onePage 16 4096 where
  freep := rfl
  sz := rfl
  grown := by
    refine ⟨by decide, by decide, by decide, by decide, ⟨by decide, ?_⟩, fun v hv₁ hv₂ => ?_⟩
    · rintro x ⟨-, hx⟩
      exact decide_eq_true (Nat.div_eq_of_lt (hx.trans (by decide)))
    · have hup : pageUp onePage.sz = 1 := rfl
      have hlo : 4096 / PGSIZE = 1 := rfl
      omega

/-- There is memory for a small request. -/
theorem onePage_malloc {nbytes : Word} (hsmall : (nunits nbytes).toNat < 4096) :
    ∃ ap h, Returns (fun fuel => onePage.malloc (addr 16) (fun _ => true) fuel nbytes) (ap, h) ∧
      ap ≠ 0 := by
  obtain ⟨ap, h, hret, -, hres⟩ := malloc_spec onePage_fresh.inv.ready (fun _ => true)
    (by omega : (nunits nbytes).toNat < 2 ^ 28)
  rcases hres with ⟨-, -, hno⟩ | ⟨l, b, hap, -, ha⟩
  · have hgrant : grant (nunits nbytes).toNat = 4096 := if_pos hsmall
    rw [hgrant] at hno
    exact absurd hno (by unfold NoRoom; decide)
  · exact ⟨ap, h, hret, ne_zero hap⟩

/-- The largest request gets a block of one unit: nothing of what it is promised is there. -/
theorem malloc_unsound : ¬ ∀ base lo h, Fresh h base lo → ∀ l u,
    Run (Step base lo) ⟨h, []⟩ l u → Throughout (Sound lo) l u := by
  intro hall
  obtain ⟨ap, h, hret, hne⟩ := onePage_malloc (by decide : (nunits 0xFFFFFFFF).toNat < 4096)
  have hrun : Run (Step 16 4096) ⟨onePage, []⟩ [(⟨onePage, []⟩, .malloc (fun _ => true) 0xFFFFFFFF)] _ :=
    .cons (.malloc hret) (.nil _)
  have hsound := (hall 16 4096 onePage onePage_fresh _ _ hrun).2
  rw [if_neg hne] at hsound
  exact absurd (hsound.fits (by decide) (by decide : onePage.sz < KERNBASE) hret)
    (by decide : ¬ (0xFFFFFFFF : Word).toNat ≤ 2 ^ 31 - 16)

end Xv6.Umalloc
