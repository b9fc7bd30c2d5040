import NetlistSplit.Block
import NetlistSplit.Proofs.Header.Declaration

/-!
# Netlists by their grammar

A netlist is a sequence of parts: code, string literals and modules.  A module is a
header, a body that is again a sequence of parts, and `endmodule` (`Parts.render`).

Code holds no comments, no quotes and no keywords, and literals are closed on their
line (`Code`, `Literal.quoted`).  Their bytes say so whatever stands around them.  What
parts must not do to each other is said of the whole sequence: no two parts make up
one identifier with a keyword in it, or a comment (`Parts.WellFormed`).

The blocks of a netlist are its modules, those inside of other modules left out
(`Parts.blocks`).
-/

namespace NetlistSplit

namespace Literal

/-- A character of a literal that stays on its line, with the backslash in front of it
if it is escaped. -/
inductive Character where
  | plain (b : UInt8) (hb : b ≠ Byte.quote ∧ b ≠ Byte.backslash ∧ b ≠ Byte.newline)
  | escaped (b : UInt8) (hb : b ≠ Byte.newline)

def Character.text : Character → Text
  | plain b _ => [b]
  | escaped b _ => [Byte.backslash, b]

/-- The literal of these characters. -/
def quoted (chars : List Character) : Text :=
  Byte.quote :: (chars.flatMap Character.text ++ [Byte.quote])

end Literal

namespace Netlist

/-- A text is split into its identifiers at the bytes that belong to none. -/
def identifiers (text : Text) : List Text :=
  text.splitOnP fun b => !Byte.isIdentifier b

theorem identifiers_append_cons {b : UInt8} (hb : Byte.isIdentifier b = false)
    (first second : Text) :
    identifiers (first ++ b :: second) = identifiers first ++ identifiers second := by
  apply List.splitOnP_append_cons
  rw [hb]
  rfl

theorem identifiers_of_identifier {word : Text} (hword : ∀ b ∈ word, Byte.isIdentifier b = true) :
    identifiers word = [word] := by
  apply List.splitOnP_eq_singleton
  intro b hb
  rw [hword b hb]
  rfl

/-- A word that goes on neither in front nor behind is one of the identifiers. -/
theorem mem_identifiers {before word behind : Text} (hword : ∀ b ∈ word, Byte.isIdentifier b = true)
    (hbefore : Keyword.joins before.getLast? = false)
    (hbehind : Keyword.joins behind.head? = false) :
    word ∈ identifiers (before ++ (word ++ behind)) := by
  have hrest : word ∈ identifiers (word ++ behind) := by
    cases behind with
    | nil => simp [identifiers_of_identifier hword]
    | cons b later =>
        rw [identifiers_append_cons hbehind, identifiers_of_identifier hword]
        exact List.mem_append_left _ List.mem_cons_self
  rcases List.eq_nil_or_concat' before with rfl | ⟨earlier, b, rfl⟩
  · exact hrest
  · rw [List.getLast?_concat] at hbefore
    rw [List.append_assoc, List.singleton_append, identifiers_append_cons hbefore]
    exact List.mem_append_right _ hrest

/-- Code without comments, literals and keywords. -/
structure Code where
  text : Text
  quote_notMem : Byte.quote ∉ text
  no_lineComment : ¬ [Byte.slash, Byte.slash] <:+: text
  no_blockComment : ¬ [Byte.slash, Byte.star] <:+: text
  no_keyword : ∀ word ∈ identifiers text, word ∉ Keyword.words.map Prod.fst

/-- The word that ends a module. -/
def closer : Text :=
  Text.ofString "endmodule"

/-- What a netlist is made of, and the body of a module: modules with code and literals
between them. -/
inductive Parts where
  | nil
  | code (plain : Code) (rest : Parts)
  | literal (chars : List Literal.Character) (rest : Parts)
  | module (header : Header.Declaration) (body rest : Parts)

namespace Parts

/-- The parts as they are written. -/
def render : Parts → Text
  | nil => []
  | code plain rest => plain.text ++ rest.render
  | literal chars rest => Literal.quoted chars ++ rest.render
  | module header body rest => header.text ++ (body.render ++ (closer ++ rest.render))

/-- The text of a module. -/
def moduleText (header : Header.Declaration) (body : Parts) : Text :=
  header.text ++ (body.render ++ closer)

theorem render_module (header : Header.Declaration) (body rest : Parts) :
    (module header body rest).render = moduleText header body ++ rest.render := by
  simp [render, moduleText]

/-- Whether code comes first. -/
def BeginsWithCode : Parts → Prop
  | code _ _ => True
  | _ => False

/-- Whether parts get along with each other, and with the byte `before` in front of
them: code does not follow code, modules stand apart from identifiers on both sides,
and so does the `endmodule` of a module from its body. -/
inductive WellFormed : (before : Option UInt8) → Parts → Prop where
  | nil {before : Option UInt8} : WellFormed before nil
  | code {before : Option UInt8} {plain : Code} {rest : Parts} (hnext : ¬ rest.BeginsWithCode)
      (hrest : WellFormed (plain.text.getLast?.or before) rest) :
      WellFormed before (.code plain rest)
  | literal {before : Option UInt8} {chars : List Literal.Character} {rest : Parts}
      (hrest : WellFormed (some Byte.quote) rest) : WellFormed before (.literal chars rest)
  | module {before : Option UInt8} {header : Header.Declaration} {body rest : Parts}
      (hbefore : Keyword.joins before = false)
      (hname : header.name ∉ Keyword.words.map Prod.fst)
      (hbody : WellFormed (some header.stop) body)
      (hlast : Keyword.joins body.render.getLast? = false)
      (hnext : Keyword.joins rest.render.head? = false)
      (hrest : WellFormed closer.getLast? rest) : WellFormed before (.module header body rest)

/-- The outermost modules, in order.  The text `earlier` stands in front of the parts. -/
def blocks (earlier : Text) : Parts → List Block
  | nil => []
  | code plain rest => rest.blocks (earlier ++ plain.text)
  | literal chars rest => rest.blocks (earlier ++ Literal.quoted chars)
  | module header body rest =>
    ⟨Text.asciiString header.name, moduleText header body, earlier.count Byte.newline + 1,
      earlier.length⟩ :: rest.blocks (earlier ++ moduleText header body)

end Parts

end Netlist

end NetlistSplit
