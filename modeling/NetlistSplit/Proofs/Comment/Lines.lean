import Mathlib.Tactic.SplitIfs
import NetlistSplit.Proofs.Comment.Stripping

/-!
# Comments are removed line by line

Comments can be removed from two netlists one by one, and it comes to the same as
removing them from both at once, the second on the lines behind the first
(`strip_append_newline`).  Whatever the first netlist leaves open, a line comment or a
literal that is not closed, ends with its last line.  There are two exceptions.  A block
comment that is not closed is a fault of the first netlist already, and a backslash in a
literal takes the newline with it.

## Strategy

What stands in front of a netlist has two ways to bear on it.  It moves the lines of
its faults, and a line comment takes back blanks that were kept before.  The second does
not reach over a newline.  So a stripper that reads behind other text goes the same way
as one that begins (`Stripper.step_behind`), and it comes to the same, with the text in
front and the lines moved (`Stripper.outcome_behind`).
-/

namespace NetlistSplit

/-- The same fault, `lines` lines further on. -/
def SourceError.moved (lines : Nat) : SourceError → SourceError
  | unterminatedComment line => unterminatedComment (line + lines)
  | unnamedModule line => unnamedModule (line + lines)
  | unterminatedModule name line => unterminatedModule name (line + lines)
  | duplicateModule name line => duplicateModule name (line + lines)

namespace Comment

/-- What a text leaves open. -/
def modeAfter (text : Text) : Mode :=
  (Stripper.read {} text).mode

/-- The same mode, `lines` lines further on. -/
def Mode.moved (lines : Nat) : Mode → Mode
  | blockComment opened => blockComment (opened + lines)
  | blockStar opened => blockStar (opened + lines)
  | mode => mode

namespace Stripper

/-! ## Reading behind other text -/

/-- The stripper with `lines` more lines read before, of which `front` was kept. -/
def behind (lines : Nat) (front : Text) (s : Stripper) : Stripper :=
  ⟨s.mode.moved lines, s.line + lines, s.kept ++ front.reverse⟩

/-- A slash that may open a comment is kept. -/
theorem kept_ne_nil_of_step {s : Stripper} {b : UInt8} (hslash : (s.step b).mode = .slash) :
    (s.step b).kept ≠ [] := by
  obtain ⟨mode, line, kept⟩ := s
  cases mode with
  | code => exact List.cons_ne_nil b kept
  | escape => exact List.cons_ne_nil b kept
  | _ =>
      simp only [step, Mode.next] at hslash
      split_ifs at hslash

section

variable {front : Text} (hfront : ∀ b ∈ front.getLast?, Byte.isBlank b = false)
include hfront

/-- Blanks are not taken back beyond a byte that is none. -/
theorem dropWhile_isBlank_append_reverse (kept : Text) :
    (kept ++ front.reverse).dropWhile Byte.isBlank =
      kept.dropWhile Byte.isBlank ++ front.reverse := by
  have hstays : front.reverse.dropWhile Byte.isBlank = front.reverse := by
    cases hlast : front.reverse with
    | nil => rfl
    | cons b rest =>
        have hb : front.getLast? = some b := by
          rw [← List.head?_reverse, hlast, List.head?_cons]
        exact List.dropWhile_cons_of_neg (Bool.eq_false_iff.mp (hfront b hb))
  rw [List.dropWhile_append]
  split_ifs with hnil
  · rw [List.isEmpty_iff.mp hnil, hstays, List.nil_append]
  · rfl

/-- What is done with a byte does not depend on the text in front. -/
theorem step_behind {s : Stripper} (hslash : s.mode = .slash → s.kept ≠ []) (lines : Nat)
    (b : UInt8) : (s.behind lines front).step b = (s.step b).behind lines front := by
  obtain ⟨mode, line, kept⟩ := s
  have hline : (if b = Byte.newline then line + lines + 1 else line + lines) =
      (if b = Byte.newline then line + 1 else line) + lines := by
    split_ifs <;> omega
  simp only [step, behind, hline]
  cases mode with
  | slash =>
      -- The slash is the newest byte that is kept, so a comment does not take back another.
      obtain ⟨slash, earlier, rfl⟩ := List.exists_cons_of_ne_nil (hslash rfl)
      simp only [Mode.moved, Mode.next, Mode.keep, List.cons_append, List.tail_cons,
        dropWhile_isBlank_append_reverse hfront]
      split_ifs <;> rfl
  | escape => rfl
  | _ =>
      simp only [Mode.moved, Mode.next, Mode.keep]
      split_ifs <;> rfl

/-- What comes of a text behind another is what comes of it alone, behind what was kept
of the other. -/
theorem outcome_behind {s : Stripper} (hslash : s.mode = .slash → s.kept ≠ []) (lines : Nat)
    (text : Text) : (s.behind lines front).outcome text =
      ((s.outcome text).map (front ++ ·)).mapError (SourceError.moved lines) := by
  induction text generalizing s with
  | nil =>
      obtain ⟨mode, line, kept⟩ := s
      cases mode <;>
        simp [outcome, read, finish, behind, Mode.moved, Except.map, Except.mapError,
          SourceError.moved]
  | cons b rest ih =>
      rw [outcome_cons, outcome_cons, step_behind hfront hslash]
      exact ih kept_ne_nil_of_step

end

/-! ## The end of a line -/

theorem line_read (s : Stripper) (text : Text) :
    (s.read text).line = s.line + text.count Byte.newline := by
  induction text generalizing s with
  | nil => rfl
  | cons b rest ih =>
      have hstep : (s.step b).line = s.line + [b].count Byte.newline := line_next s.line b
      calc (s.read (b :: rest)).line
          = (s.step b).line + rest.count Byte.newline := ih (s.step b)
        _ = s.line + (b :: rest).count Byte.newline := by
          rw [hstep, Nat.add_assoc, ← List.count_append, List.singleton_append]

/-- A newline ends all that may be open at the end of a netlist, except for an escape. -/
theorem step_newline {s : Stripper} {kept : Text} (hfinish : s.finish = .ok kept)
    (hescape : s.mode ≠ .escape) :
    s.step Byte.newline = ⟨.code, s.line + 1, Byte.newline :: kept.reverse⟩ := by
  obtain ⟨mode, line, earlier⟩ := s
  cases mode with
  | escape => exact absurd rfl hescape
  | blockComment opened => cases hfinish
  | blockStar opened => cases hfinish
  | _ =>
      obtain rfl := Except.ok.inj hfinish
      rw [List.reverse_reverse]
      rfl

end Stripper

/-! ## Netlists one behind the other -/

theorem strip_append (first second : Text) :
    strip (first ++ second) = (Stripper.read {} first).outcome second := by
  rw [strip, Stripper.read_append]
  rfl

/-- What is kept of two netlists, one on the lines behind the other, is what is kept of
each of them, and a fault of the second is moved by the lines of the first. -/
theorem strip_append_newline {first kept : Text} (hstrip : strip first = .ok kept)
    (hescape : modeAfter first ≠ .escape) (second : Text) :
    match strip second with
    | .ok later =>
      strip (first ++ Byte.newline :: second) = .ok (kept ++ Byte.newline :: later)
    | .error fault => ∃ line, fault = .unterminatedComment line ∧
      strip (first ++ Byte.newline :: second) =
        .error (.unterminatedComment (line + (first.count Byte.newline + 1))) := by
  have hbehind : (Stripper.read {} first).step Byte.newline =
      Stripper.behind (first.count Byte.newline + 1) (kept ++ [Byte.newline]) {} := by
    rw [Stripper.step_newline hstrip hescape, Stripper.line_read, Stripper.behind,
      List.reverse_append, Nat.add_assoc]
    rfl
  have hboth : strip (first ++ Byte.newline :: second) =
      ((strip second).map (kept ++ [Byte.newline] ++ ·)).mapError
        (SourceError.moved (first.count Byte.newline + 1)) := by
    calc strip (first ++ Byte.newline :: second)
        = ((Stripper.read {} first).step Byte.newline).outcome second := strip_append first _
      _ = (Stripper.behind (first.count Byte.newline + 1) (kept ++ [Byte.newline]) {}).outcome
            second := by rw [hbehind]
      _ = ((strip second).map (kept ++ [Byte.newline] ++ ·)).mapError
            (SourceError.moved (first.count Byte.newline + 1)) :=
          Stripper.outcome_behind (by simp; decide) (fun hslash => by cases hslash) _ second
  rw [hboth]
  cases hsecond : strip second with
  | ok later => simp [Except.map, Except.mapError]
  | error fault =>
      obtain ⟨line, rfl⟩ : ∃ line, fault = .unterminatedComment line := by
        rw [strip, Stripper.finish] at hsecond
        split at hsecond
        · exact ⟨_, (Except.error.inj hsecond).symm⟩
        · exact ⟨_, (Except.error.inj hsecond).symm⟩
        · cases hsecond
      exact ⟨line, rfl, rfl⟩

/-- The first netlist ends in a literal that is not closed, with an escaped quote and a
marker in it, and the second begins with blanks in front of a comment. -/
theorem strip_append_newline_openLiteral :
    strip (Text.ofString "a /* \n */ b; \"x \\\" /*") = .ok (Text.ofString "a  b; \"x \\\" /*") ∧
      modeAfter (Text.ofString "a /* \n */ b; \"x \\\" /*") ≠ .escape ∧
      strip (Text.ofString "a /* \n */ b; \"x \\\" /*\n \t// c\nd \"/*\"") =
        .ok (Text.ofString "a  b; \"x \\\" /*\n\nd \"/*\"") ∧
      strip (Text.ofString "a /* \n */ b; \"x \\\" /*\n\n /*/") =
        .error (.unterminatedComment 4) := by
  have hstrip : strip (Text.ofString "a /* \n */ b; \"x \\\" /*") =
      .ok (Text.ofString "a  b; \"x \\\" /*") := rfl
  have hescape : modeAfter (Text.ofString "a /* \n */ b; \"x \\\" /*") ≠ .escape := by decide
  refine ⟨hstrip, hescape,
    strip_append_newline hstrip hescape (Text.ofString " \t// c\nd \"/*\""), ?_⟩
  obtain ⟨line, hline, hfails⟩ := strip_append_newline hstrip hescape (Text.ofString "\n /*/")
  obtain rfl := SourceError.unterminatedComment.inj hline
  exact hfails

end Comment

end NetlistSplit
