import Mathlib.Data.Int.Notation
import Mathlib.Data.List.Induction

/-! @src console.c font.c font.h font_bin.h | name:The console on the screen | layer:model,proof

    `consputc` draws at a cursor that may stand behind the last line. `graphic_putc` brings it back
    before it draws, so everything is drawn on the screen. But it draws whatever is not a newline or a
    backspace, and `font_bin` has glyphs for the codes from the space to the tilde only. -/

namespace Xv6.Console.Output

abbrev FONT_WIDTH : ℤ := 15
abbrev FONT_HEIGHT : ℤ := 30
abbrev CONSOLE_HORIZONTAL_MAX : ℤ := 53
abbrev CONSOLE_VERTICAL_MAX : ℤ := 20
abbrev BACKSPACE : ℤ := 0x100

/-- `'\n'`. -/
abbrev newline : ℤ := 0x0a

/-- A call that the console makes. -/
inductive Call where
  | uartputc (c : ℤ)
  | graphic_scroll_up (height : ℤ)
  | font_render (x y index : ℤ)

/-- A round of `font_render`: the line of `font_bin` that it reads, and the pixel that it draws. -/
structure Dot where
  glyph : ℤ
  line : ℕ
  x : ℤ
  y : ℤ

/-- The loops of `font_render`. -/
def font_render (x y index : ℤ) : List Dot :=
  (List.range 30).flatMap fun i =>
    (List.range 15).reverse.map fun j : ℕ => ⟨index - 0x20, i, x + (14 - j), y + i⟩

/-- `console_pos`, and the calls made so far. -/
structure Screen where
  console_pos : ℤ
  calls : List Call

namespace Screen

def call (s : Screen) (c : Call) : Screen := { s with calls := s.calls ++ [c] }

/-- A cursor behind the last line goes up one line, and the screen with it. -/
def scroll (s : Screen) : Screen :=
  if s.console_pos ≥ CONSOLE_VERTICAL_MAX * CONSOLE_HORIZONTAL_MAX then
    { s with console_pos := s.console_pos - CONSOLE_HORIZONTAL_MAX }.call (.graphic_scroll_up 30)
  else s

def graphic_putc (s : Screen) (c : ℤ) : Screen :=
  if c = newline then
    { s with console_pos := s.console_pos +
      (CONSOLE_HORIZONTAL_MAX - s.console_pos.tmod CONSOLE_HORIZONTAL_MAX) }.scroll
  else if c = BACKSPACE then
    if s.console_pos > 0 then { s with console_pos := s.console_pos - 1 } else s
  else
    let s := s.scroll
    let x := s.console_pos.tmod CONSOLE_HORIZONTAL_MAX * FONT_WIDTH + 2
    let y := s.console_pos.tdiv CONSOLE_HORIZONTAL_MAX * FONT_HEIGHT
    let s := s.call (.font_render x y c)
    { s with console_pos := s.console_pos + 1 }

/-- `consputc`, as long as the kernel has not panicked. -/
def consputc (s : Screen) (c : ℤ) : Screen :=
  let s := if c = BACKSPACE then
      ((s.call (.uartputc 0x08)).call (.uartputc 0x20)).call (.uartputc 0x08)
    else s.call (.uartputc c)
  s.graphic_putc c

/-- The initial `console_pos`. -/
def init : Screen := ⟨CONSOLE_HORIZONTAL_MAX * CONSOLE_VERTICAL_MAX, []⟩

/-- After these values. -/
def after (cs : List ℤ) : Screen := cs.foldl consputc init

end Screen

/-! ### Bounds -/

/-- The cursor is on the screen, or right behind it. -/
def InRange (pos : ℤ) : Prop := 0 ≤ pos ∧ pos ≤ CONSOLE_HORIZONTAL_MAX * CONSOLE_VERTICAL_MAX

/-- A glyph is drawn on the screen. -/
def Call.Placed : Call → Prop
  | .font_render x y _ => x ≤ 52 * FONT_WIDTH + 2 ∧ y ≤ 19 * FONT_HEIGHT
  | _ => True

/-- What is drawn is one of the glyphs of `font_bin`. -/
def Call.Known : Call → Prop
  | .font_render x y index => ∀ dot ∈ Output.font_render x y index, 0 ≤ dot.glyph ∧ dot.glyph ≤ 94
  | _ => True

/-- Nothing has gone out of bounds. -/
structure Ok (s : Screen) : Prop where
  range : InRange s.console_pos
  placed : ∀ call ∈ s.calls, call.Placed
  known : ∀ call ∈ s.calls, call.Known

/-- A newline, a backspace, or a character from the space to the tilde. -/
def Drawable (c : ℤ) : Prop := c = newline ∨ c = BACKSPACE ∨ 0x20 ≤ c ∧ c ≤ 0x7e

/-- The calls `new` have been made since, on the screen, and for glyphs of `font_bin` iff `K`. -/
structure Draws (s t : Screen) (new : List Call) (K : Prop) : Prop where
  calls : t.calls = s.calls ++ new
  placed : ∀ call ∈ new, call.Placed
  known : (∀ call ∈ new, call.Known) ↔ K

section

variable {s t u : Screen} {c : ℤ} {new new' : List Call} {K K' : Prop}

theorem draws_none (h : t.calls = s.calls) : Draws s t [] True :=
  ⟨h.trans (List.append_nil _).symm, by simp, by simp⟩

theorem Draws.trans (h : Draws s t new K) (h' : Draws t u new' K') :
    Draws s u (new ++ new') (K ∧ K') := by
  refine ⟨?_, ?_, ?_⟩
  · rw [h'.calls, h.calls, List.append_assoc]
  · exact fun call hcall => (List.mem_append.mp hcall).elim (h.placed call) (h'.placed call)
  · rw [List.forall_mem_append, h.known, h'.known]

/-- The glyphs are those of the codes from the space to the tilde. -/
theorem known_iff {x y : ℤ} : (Call.font_render x y c).Known ↔ 0x20 ≤ c ∧ c ≤ 0x7e := by
  have hglyph : ∀ dot ∈ font_render x y c, dot.glyph = c - 0x20 := by
    intro dot hdot
    obtain ⟨i, -, hi⟩ := List.mem_flatMap.mp hdot
    obtain ⟨j, -, rfl⟩ := List.mem_map.mp hi
    rfl
  constructor
  · intro h
    have hmem : (⟨c - 0x20, 0, x + (14 - (0 : ℕ)), y + (0 : ℕ)⟩ : Dot) ∈ font_render x y c :=
      List.mem_flatMap.mpr ⟨0, List.mem_range.mpr (by decide), List.mem_map.mpr ⟨0, by decide, rfl⟩⟩
    obtain ⟨hlow, hhigh⟩ : 0 ≤ c - 0x20 ∧ c - 0x20 ≤ 94 := h _ hmem
    omega
  · intro h dot hdot
    rw [hglyph dot hdot]
    omega

theorem inRange_iff {pos : ℤ} : InRange pos ↔ 0 ≤ pos ∧ pos ≤ 1060 := Iff.rfl

theorem scroll_eq : s.scroll = if s.console_pos ≥ 1060 then
    { s with console_pos := s.console_pos - 53 }.call (.graphic_scroll_up 30) else s := rfl

theorem putc_newline : s.graphic_putc newline =
    { s with console_pos := s.console_pos + (53 - s.console_pos.tmod 53) }.scroll := rfl

theorem putc_backspace : s.graphic_putc BACKSPACE =
    if s.console_pos > 0 then { s with console_pos := s.console_pos - 1 } else s := rfl

theorem putc_char (hnl : c ≠ newline) (hbs : c ≠ BACKSPACE) : s.graphic_putc c =
    { s.scroll.call (.font_render (s.scroll.console_pos.tmod 53 * 15 + 2)
        (s.scroll.console_pos.tdiv 53 * 30) c) with console_pos := s.scroll.console_pos + 1 } := by
  unfold Screen.graphic_putc
  rw [if_neg hnl, if_neg hbs]
  rfl

/-- A cursor that is not more than a line too far is brought back. -/
theorem scroll_spec (h0 : 0 ≤ s.console_pos) (h : s.console_pos ≤ 1113) :
    InRange s.scroll.console_pos ∧ (s.console_pos ≤ 1060 → s.scroll.console_pos < 1060) ∧
      ∃ new, Draws s s.scroll new True := by
  rw [inRange_iff, scroll_eq]
  split
  · refine ⟨⟨?_, ?_⟩, fun _ => ?_, _, rfl, by simp [Call.Placed], by simp [Call.Known]⟩ <;>
      simp only [Screen.call] <;> omega
  · exact ⟨⟨h0, by omega⟩, fun _ => by omega, _, draws_none rfl⟩

/-- What a value does: the cursor stays in its range, and what is drawn is on the screen. -/
theorem graphic_putc_spec (h : InRange s.console_pos) :
    InRange (s.graphic_putc c).console_pos ∧ ∃ new, Draws s (s.graphic_putc c) new (Drawable c) := by
  obtain ⟨h0, hmax⟩ := inRange_iff.mp h
  by_cases hnl : c = newline
  · subst hnl
    have hmod : s.console_pos.tmod 53 = s.console_pos % 53 := Int.tmod_eq_emod_of_nonneg h0
    have hlow : 0 ≤ s.console_pos + (53 - s.console_pos.tmod 53) := by omega
    have hhigh : s.console_pos + (53 - s.console_pos.tmod 53) ≤ 1113 := by omega
    have hdrawable : Drawable newline := Or.inl rfl
    rw [putc_newline, eq_true hdrawable]
    obtain ⟨hrange, -, new, hdraws⟩ := scroll_spec (s := { s with console_pos := _ }) hlow hhigh
    exact ⟨hrange, new, hdraws.calls, hdraws.placed, hdraws.known⟩
  · by_cases hbs : c = BACKSPACE
    · subst hbs
      have hdrawable : Drawable BACKSPACE := Or.inr (Or.inl rfl)
      rw [putc_backspace, eq_true hdrawable]
      split
      · refine ⟨inRange_iff.mpr ⟨?_, ?_⟩, _, draws_none rfl⟩ <;> dsimp only <;> omega
      · exact ⟨h, _, draws_none rfl⟩
    · -- a character is drawn after the cursor has been brought back
      obtain ⟨hrange, hscrolled, new, hdraws⟩ := scroll_spec h0 (by omega)
      have hpos0 := hrange.1
      have hpos := hscrolled hmax
      have hx : s.scroll.console_pos.tmod 53 = s.scroll.console_pos % 53 :=
        Int.tmod_eq_emod_of_nonneg hpos0
      have hy : s.scroll.console_pos.tdiv 53 = s.scroll.console_pos / 53 :=
        Int.tdiv_eq_ediv_of_nonneg hpos0
      have hchar : True ∧ (0x20 ≤ c ∧ c ≤ 0x7e) ↔ Drawable c := by simp [Drawable, hnl, hbs]
      rw [putc_char hnl hbs, ← propext hchar]
      refine ⟨inRange_iff.mpr ⟨?_, ?_⟩, _, hdraws.trans ⟨rfl, ?_, ?_⟩⟩
      · dsimp only
        omega
      · dsimp only
        omega
      · rw [List.forall_mem_singleton, Call.Placed, hx, hy]
        constructor <;> simp only [FONT_WIDTH, FONT_HEIGHT] <;> omega
      · rw [List.forall_mem_singleton, known_iff]

theorem consputc_spec (h : InRange s.console_pos) :
    InRange (s.consputc c).console_pos ∧ ∃ new, Draws s (s.consputc c) new (Drawable c) := by
  have huart : ∃ t new, s.consputc c = t.graphic_putc c ∧ t.console_pos = s.console_pos ∧
      Draws s t new True := by
    unfold Screen.consputc
    split
    · refine ⟨_, [.uartputc 0x08, .uartputc 0x20, .uartputc 0x08], rfl, rfl, ?_, ?_, ?_⟩
      · simp [Screen.call]
      · simp [Call.Placed]
      · simp [Call.Known]
    · exact ⟨_, [.uartputc c], rfl, rfl, rfl, by simp [Call.Placed], by simp [Call.Known]⟩
  obtain ⟨t, new, heq, hpos, hdraws⟩ := huart
  obtain ⟨hrange, new', hdraws'⟩ := graphic_putc_spec (c := c) (hpos ▸ h)
  rw [heq]
  exact ⟨hrange, _, true_and (Drawable c) ▸ hdraws.trans hdraws'⟩

end

/-- After any values the cursor is in its range; what has been drawn is on the screen, and only glyphs
    of `font_bin` iff only drawable characters have come. -/
theorem after_spec (cs : List ℤ) : InRange (Screen.after cs).console_pos ∧
    ∃ new, Draws Screen.init (Screen.after cs) new (∀ c ∈ cs, Drawable c) := by
  induction cs using List.reverseRecOn with
  | nil => exact ⟨⟨by decide, by decide⟩, [], rfl, by simp, by simp⟩
  | append_singleton cs c ih =>
    obtain ⟨hrange, new, hdraws⟩ := ih
    obtain ⟨hrange', new', hdraws'⟩ := consputc_spec (c := c) hrange
    have heq : Screen.after (cs ++ [c]) = (Screen.after cs).consputc c := List.foldl_append
    rw [heq]
    refine ⟨hrange', new ++ new', ?_⟩
    rw [List.forall_mem_append, List.forall_mem_singleton]
    exact hdraws.trans hdraws'

theorem ok_after_iff (cs : List ℤ) : Ok (Screen.after cs) ↔ ∀ c ∈ cs, Drawable c := by
  obtain ⟨hrange, new, hcalls, hplaced, hknown⟩ := after_spec cs
  rw [Screen.init, List.nil_append] at hcalls
  rw [← hknown, ← hcalls]
  exact ⟨fun h => h.known, fun h => ⟨hrange, hcalls ▸ hplaced, h⟩⟩

/-- Drawing stays in bounds throughout iff each value is a newline, a backspace, or a character from
    the space to the tilde. -/
theorem drawing_in_bounds_iff (cs : List ℤ) :
    (∀ pre, pre <+: cs → Ok (Screen.after pre)) ↔ ∀ c ∈ cs, Drawable c := by
  constructor
  · exact fun h => (ok_after_iff cs).mp (h cs (List.prefix_refl cs))
  · exact fun h pre hpre => (ok_after_iff pre).mpr fun c hc => h c (hpre.subset hc)

/-- The tab, which `consolewrite` passes on as it is. -/
theorem tab_out_of_bounds : ¬ ∀ pre, pre <+: [9] → Ok (Screen.after pre) := by
  intro h
  have htab : Drawable 9 := (ok_after_iff [9]).mp (h [9] (List.prefix_refl _)) 9 (List.mem_singleton_self 9)
  unfold Drawable at htab
  revert htab
  decide

end Xv6.Console.Output
