import FrontEnd.Proofs.Lexing.Reading
import FrontEnd.Proofs.Outlining.Quote
import FrontEnd.Tree.Outline
import Mathlib.Data.List.Nodup

/-! How outlines are taken apart. A word is read off wherever something that separates follows it,
a list starts with a head that says what it is a list of, and blanks, commas and the closing
parenthesis say where its parts end. -/
namespace FrontEnd

namespace Lexical

/-- Where one text starts with the texts of two lexemes, both read as such, these are the same. -/
theorem Reads.cancel {l l' : Lexeme} {more more' : List Char} (h : Reads l more)
    (h' : Reads l' more') (heq : l.text.toList ++ more = l'.text.toList ++ more') :
    l = l' ∧ more = more' := by
  obtain ⟨c, cs, htext, hread⟩ := h
  obtain ⟨c', cs', htext', hread'⟩ := h'
  rw [htext, htext', List.cons_append, List.cons_append] at heq
  obtain ⟨rfl, hrest⟩ := List.cons.inj heq
  rw [← hrest, hread] at hread'
  obtain ⟨hcs, hl⟩ := Reading.mk.inj (Except.ok.inj hread')
  rw [(List.cons.inj hcs).2] at hrest
  exact ⟨Option.some.inj hl, List.append_cancel_left hrest⟩

/-- A word starts with no parenthesis. -/
theorem Written.opens_word {v : String} (h : Written (.word v)) :
    ∃ c cs, v.toList = c :: cs ∧ c ≠ '(' ∧ c ≠ ')' := by
  obtain ⟨c, cs, htext, -⟩ := h [] ends_nil
  have hother : ∀ kind ∈ closedKinds, (Lexeme.fixed kind).text.toList ≠ [c] := by
    intro kind hkind hc
    have hfixed := reads_fixed hkind (cs ++ [])
    have hsame := (h [] ends_nil).cancel hfixed (by rw [htext, hc]; rfl)
    have hlexeme := congrArg Lexeme.kind hsame.1
    obtain rfl : TokenKind.word = kind := hlexeme
    exact absurd hkind (by decide)
  refine ⟨c, cs, htext, ?_, ?_⟩
  · rintro rfl
    exact hother .openParen (by decide) rfl
  · rintro rfl
    exact hother .closeParen (by decide) rfl

end Lexical

namespace Outline

open Lexical

/-- What stands between the parts of a list. -/
inductive Separator where
  | blank
  | comma

def Separator.chars : Separator → List Char
  | blank => [' ']
  | comma => [',', ' ']

/-- The parts of a list behind its first one, up to the closing parenthesis. -/
def closing (sep : Separator) : List String → List Char
  | [] => [')']
  | part :: parts => sep.chars ++ (part.toList ++ closing sep parts)

theorem toList_intercalate_close {sep : String} {separator : Separator}
    (hsep : sep.toList = separator.chars) (part : String) (parts : List String) :
    (sep.intercalate (part :: parts)).toList ++ [')'] = part.toList ++ closing separator parts := by
  induction parts generalizing part with
  | nil => simp [closing]
  | cons next parts ih =>
    have h := ih next
    rw [String.toList_intercalate, hsep] at h ⊢
    rw [List.map_cons, List.map_cons, List.intercalate_cons_cons, ← List.map_cons,
      List.append_assoc, h, closing, List.append_assoc]

theorem toList_node (head : String) (parts : List String) :
    (node (head :: parts)).toList = '(' :: (head.toList ++ closing .blank parts) := by
  rw [node, String.toList_append, String.toList_append, List.append_assoc]
  exact congrArg ('(' :: ·) (toList_intercalate_close rfl head parts)

/-- A last part that is a list of its own goes on with the parts of that list. -/
theorem closing_spaced (part : String) (parts : List String) :
    closing .blank [spaced (part :: parts)] = closing .blank (part :: parts) :=
  congrArg (' ' :: ·) (toList_intercalate_close rfl part parts)

theorem toList_names (x : Ident) (xs : List Ident) :
    (names (x :: xs)).toList = '(' :: (x.name.toList ++ closing .comma (xs.map (·.name))) := by
  rw [names, String.toList_append, String.toList_append, List.append_assoc, List.map_cons]
  exact congrArg ('(' :: ·) (toList_intercalate_close rfl x.name _)

theorem ends_closing (sep : Separator) (parts : List String) (more : List Char) :
    Ends (closing sep parts ++ more) := by
  cases parts with
  | nil => exact ends_cons (by decide)
  | cons part parts => cases sep <;> exact ends_cons (by decide)

/-! ## Texts that can be told apart -/

/-- Wherever `x` and `y` stand at one place, each with a separating character or nothing behind it,
the same follows both, and `P` holds. -/
structure Cancels (x y : List Char) (P : Prop) : Prop where
  cancel : ∀ {more more' : List Char}, Ends more → Ends more' → x ++ more = y ++ more' →
    P ∧ more = more'

namespace Cancels

variable {x y : List Char} {P Q : Prop}

theorem mono (h : Cancels x y P) (hPQ : P → Q) : Cancels x y Q := by
  constructor
  intro more more' hmore hmore' heq
  obtain ⟨hP, hsame⟩ := h.cancel hmore hmore' heq
  exact ⟨hPQ hP, hsame⟩

theorem refl (x : List Char) : Cancels x x True := by
  constructor
  intro more more' _ _ heq
  exact ⟨trivial, List.append_cancel_left heq⟩

theorem symm (h : Cancels x y P) : Cancels y x P := by
  constructor
  intro more more' hmore hmore' heq
  obtain ⟨hP, hsame⟩ := h.cancel hmore' hmore heq.symm
  exact ⟨hP, hsame.symm⟩

theorem prefixed (front : List Char) (h : Cancels x y P) :
    Cancels (front ++ x) (front ++ y) P := by
  constructor
  intro more more' hmore hmore' heq
  rw [List.append_assoc, List.append_assoc] at heq
  exact h.cancel hmore hmore' (List.append_cancel_left heq)

theorem labelled (label : String) {v w : String} (h : Cancels v.toList w.toList P) :
    Cancels (label ++ v).toList (label ++ w).toList P := by
  rw [String.toList_append, String.toList_append]
  exact h.prefixed label.toList

/-- Texts whose first characters differ do not stand at one place. -/
theorem of_head_ne {c d : Char} {cs ds : List Char} (h : c ≠ d) :
    Cancels (c :: cs) (d :: ds) P := by
  constructor
  intro more more' _ _ heq
  exact absurd (List.cons.inj heq).1 h

theorem word {v w : String} (hv : Written (.word v)) (hw : Written (.word w)) :
    Cancels v.toList w.toList (v = w) := by
  constructor
  intro more more' hmore hmore' heq
  obtain ⟨hl, hsame⟩ := (hv more hmore).cancel (hw more' hmore') heq
  exact ⟨congrArg Lexeme.value hl, hsame⟩

theorem quoted (v w : String) : Cancels (Text.quote v).toList (Text.quote w).toList (v = w) := by
  constructor
  intro more more' _ _ heq
  exact Text.quote_cancel heq

theorem flag (b b' : Bool) : Cancels (Outline.flag b).toList (Outline.flag b').toList (b = b') := by
  cases b <;> cases b'
  · exact (refl _).mono fun _ => rfl
  · exact of_head_ne (by decide)
  · exact of_head_ne (by decide)
  · exact (refl _).mono fun _ => rfl

theorem functionKind (kind kind' : FunctionKind) :
    Cancels kind.name.toList kind'.name.toList (kind = kind') := by
  cases kind <;> cases kind'
  · exact (refl _).mono fun _ => rfl
  · exact of_head_ne (by decide)
  · exact of_head_ne (by decide)
  · exact (refl _).mono fun _ => rfl

/-! ### Parts of lists -/

variable {sep : Separator} {part part' : String} {parts parts' : List String}

theorem nil : Cancels (closing sep []) (closing sep []) True :=
  refl _

/-- A part and the parts behind it, which are compared where the first ones agree. -/
theorem first (hpart : Cancels part.toList part'.toList P)
    (hparts : P → Cancels (closing sep parts) (closing sep parts') Q) :
    Cancels (part.toList ++ closing sep parts) (part'.toList ++ closing sep parts') (P ∧ Q) := by
  constructor
  intro more more' hmore hmore' heq
  rw [List.append_assoc, List.append_assoc] at heq
  obtain ⟨hP, hrest⟩ := hpart.cancel (ends_closing sep parts more)
    (ends_closing sep parts' more') heq
  obtain ⟨hQ, hsame⟩ := (hparts hP).cancel hmore hmore' hrest
  exact ⟨⟨hP, hQ⟩, hsame⟩

theorem andThen (hpart : Cancels part.toList part'.toList P)
    (hparts : P → Cancels (closing sep parts) (closing sep parts') Q) :
    Cancels (closing sep (part :: parts)) (closing sep (part' :: parts')) (P ∧ Q) :=
  (hpart.first hparts).prefixed sep.chars

theorem cons (hpart : Cancels part.toList part'.toList P)
    (hparts : Cancels (closing sep parts) (closing sep parts') Q) :
    Cancels (closing sep (part :: parts)) (closing sep (part' :: parts')) (P ∧ Q) :=
  hpart.andThen fun _ => hparts

/-- A list that ends here is none that goes on. -/
theorem nil_cons : Cancels (closing sep []) (closing sep (part :: parts)) P := by
  cases sep <;> exact of_head_ne (by decide)

theorem node {head : String}
    (h : Cancels (closing .blank parts) (closing .blank parts') P) :
    Cancels (Outline.node (head :: parts)).toList (Outline.node (head :: parts')).toList P := by
  rw [toList_node, toList_node]
  exact (h.prefixed head.toList).prefixed ['(']

theorem words {vs ws : List String} (hv : ∀ v ∈ vs, Written (.word v))
    (hw : ∀ w ∈ ws, Written (.word w)) :
    Cancels (closing sep vs) (closing sep ws) (vs = ws) := by
  induction vs generalizing ws with
  | nil =>
    cases ws with
    | nil => exact nil.mono fun _ => rfl
    | cons w ws => exact nil_cons
  | cons v vs ih =>
    cases ws with
    | nil => exact nil_cons.symm
    | cons w ws =>
      have hfirst := word (hv v List.mem_cons_self) (hw w List.mem_cons_self)
      have hrest := ih (fun v' h => hv v' (List.mem_cons_of_mem v h))
        fun w' h => hw w' (List.mem_cons_of_mem w h)
      exact (hfirst.cons hrest).mono fun ⟨h, h'⟩ => by rw [h, h']

/-- Parameters against none. -/
theorem names_nil {y : Ident} {ys : List Ident} (hy : Written (.word y.name)) :
    Cancels (Outline.names []).toList (Outline.names (y :: ys)).toList P := by
  obtain ⟨c, cs, hc, -, hclose⟩ := hy.opens_word
  rw [toList_names, hc]
  exact (of_head_ne hclose.symm).prefixed ['(']

theorem names {xs ys : List Ident} (hx : ∀ x ∈ xs, Written (.word x.name))
    (hy : ∀ y ∈ ys, Written (.word y.name)) :
    Cancels (Outline.names xs).toList (Outline.names ys).toList
      (xs.map (·.name) = ys.map (·.name)) := by
  cases xs with
  | nil =>
    cases ys with
    | nil => exact (refl _).mono fun _ => rfl
    | cons y ys => exact names_nil (hy y List.mem_cons_self)
  | cons x xs =>
    cases ys with
    | nil => exact (names_nil (hx x List.mem_cons_self)).symm
    | cons y ys =>
      -- names as texts, for the lemma on lists of words
      have hwritten : ∀ {zs : List Ident}, (∀ z ∈ zs, Written (.word z.name)) →
          ∀ v ∈ zs.map (·.name), Written (.word v) := by
        intro zs hz v hv
        obtain ⟨z, hmem, rfl⟩ := List.mem_map.mp hv
        exact hz z hmem
      have hfirst := word (hx x List.mem_cons_self) (hy y List.mem_cons_self)
      have hrest : Cancels (closing .comma _) (closing .comma _) _ :=
        words (hwritten fun x' h => hx x' (List.mem_cons_of_mem x h))
          (hwritten fun y' h => hy y' (List.mem_cons_of_mem y h))
      rw [toList_names, toList_names]
      refine ((hfirst.first fun _ => hrest).prefixed ['(']).mono ?_
      intro ⟨hname, hnames⟩
      rw [List.map_cons, List.map_cons, hname, hnames]

end Cancels

/-! ## Heads -/

/-- What a list says that it is. -/
inductive Head where
  | literal (kind : LiteralKind)
  | operation (operation : Operation)
  | function
  | call
  | callValue
  | tuple
  | path
  | item
  | group
  | block
  | statement
  | binding
  | declaration
  | returning
  | importResource
  | importPath
deriving DecidableEq

namespace Head

def text : Head → String
  | .literal kind => kind.name
  | .operation op => op.name
  | .function => "fn"
  | .call => "call"
  | .callValue => "call-value"
  | .tuple => "tuple"
  | .path => "path"
  | .item => "item"
  | .group => "group"
  | .block => "block"
  | .statement => "stmt"
  | .binding => "let"
  | .declaration => "fn-decl"
  | .returning => "return"
  | .importResource => "extern"
  | .importPath => "import"

def all : List Head :=
  [.literal .float, .literal .string, .literal .rawString, .literal .character, .function, .call,
    .callValue, .tuple, .path, .item, .group, .block, .statement, .binding, .declaration,
    .returning, .importResource, .importPath] ++
    (Radix.all.map fun radix => .literal (.integer radix)) ++ Operation.all.map .operation

theorem mem_all (h : Head) : h ∈ all := by
  cases h with
  | literal kind =>
    cases kind with
    | integer radix => cases radix <;> decide
    | _ => decide
  | operation op => cases op <;> decide
  | _ => decide

/-- No two heads are written alike. -/
theorem text_injective {h h' : Head} (heq : h.text = h'.text) : h = h' := by
  have hnodup : (all.map text).Nodup := by decide +kernel
  exact List.inj_on_of_nodup_map hnodup (mem_all h) (mem_all h') heq

theorem ne_blank_of_mem_text {h : Head} {c : Char} (hc : c ∈ h.text.toList) : c ≠ ' ' := by
  have hall : (all.all fun h => h.text.toList.all (· != ' ')) = true := by decide +kernel
  have htext := List.all_eq_true.mp (List.all_eq_true.mp hall h (mem_all h)) c hc
  simpa using htext

/-- A head is all that stands before the first blank. -/
theorem text_cancel {h h' : Head} {more more' : List Char}
    (heq : h.text.toList ++ ' ' :: more = h'.text.toList ++ ' ' :: more') : h = h' := by
  have htake : ∀ (h : Head) (more : List Char),
      (h.text.toList ++ ' ' :: more).takeWhile (· != ' ') = h.text.toList := by
    intro h more
    rw [List.takeWhile_append_of_pos fun c hc => by simpa using ne_blank_of_mem_text hc]
    simp
  have htext := congrArg (List.takeWhile (· != ' ')) heq
  rw [htake, htake] at htext
  exact text_injective (String.toList_injective htext)

end Head

/-- A text is a list with the head, or it is none. -/
inductive Opens (x : List Char) : Option Head → Prop where
  | list {h : Head} {rest : List Char} (hx : x = '(' :: (h.text.toList ++ ' ' :: rest)) :
      Opens x (some h)
  | plain {c : Char} {cs : List Char} (hx : x = c :: cs) (hopen : c ≠ '(') (hclose : c ≠ ')') :
      Opens x none

theorem opens_node (h : Head) (part : String) (parts : List String) :
    Opens (node (h.text :: part :: parts)).toList (some h) :=
  .list (toList_node h.text (part :: parts))

theorem opens_word {v : String} (h : Written (.word v)) : Opens v.toList none := by
  obtain ⟨c, cs, hc, hopen, hclose⟩ := h.opens_word
  exact .plain hc hopen hclose

namespace Opens

variable {x y : List Char} {h? h?' : Option Head} {P : Prop}

theorem ne_close (h : Opens x h?) : ∃ c cs, x = c :: cs ∧ c ≠ ')' := by
  cases h with
  | list hx => exact ⟨'(', _, hx, by decide⟩
  | plain hx _ hclose => exact ⟨_, _, hx, hclose⟩

theorem unique (h : Opens x h?) (h' : Opens y h?') {more more' : List Char}
    (heq : x ++ more = y ++ more') : h? = h?' := by
  cases h with
  | list hx =>
    cases h' with
    | list hy =>
      subst hx hy
      simp only [List.cons_append, List.append_assoc, List.cons.injEq, true_and] at heq
      rw [Head.text_cancel heq]
    | plain hy hopen _ =>
      subst hx hy
      exact absurd (List.cons.inj heq).1.symm hopen
  | plain hx hopen _ =>
    cases h' with
    | list hy =>
      subst hx hy
      exact absurd (List.cons.inj heq).1 hopen
    | plain _ _ _ => rfl

/-- Two texts are compared under the assumption that they have the same head. -/
theorem cancels (h : Opens x h?) (h' : Opens y h?') (hsame : h? = h?' → Cancels x y P) :
    Cancels x y P := by
  constructor
  intro more more' hmore hmore' heq
  exact (hsame (h.unique h' heq)).cancel hmore hmore' heq

end Opens

namespace Cancels

variable {part : String} {parts parts' : List String} {P : Prop}

/-- Parts with different heads do not stand at one place. -/
theorem of_opens_ne {part' : String} {h? h?' : Option Head} (h : Opens part.toList h?)
    (h' : Opens part'.toList h?') (hne : h? ≠ h?') :
    Cancels (closing .blank (part :: parts)) (closing .blank (part' :: parts')) P := by
  constructor
  intro more more' _ _ heq
  simp only [closing, List.append_assoc] at heq
  exact absurd (h.unique h' (List.append_cancel_left heq)) hne

/-- A list without parts is none with a part that does not look like its end. -/
theorem nil_spaced {h? : Option Head} (h : Opens part.toList h?) :
    Cancels (closing .blank [Outline.spaced []]) (closing .blank (part :: parts)) P := by
  obtain ⟨c, cs, hc, hclose⟩ := h.ne_close
  have hpart : closing .blank (part :: parts) = ' ' :: c :: (cs ++ closing .blank parts) := by
    rw [closing, hc]
    rfl
  rw [hpart]
  exact (of_head_ne hclose.symm).prefixed [' ']

/-- A list of its own as the last part of a list. -/
theorem spaced (h : Cancels (closing .blank parts) (closing .blank parts') P)
    (hparts : ∀ part ∈ parts, ∃ h?, Opens part.toList h?)
    (hparts' : ∀ part ∈ parts', ∃ h?, Opens part.toList h?) :
    Cancels (closing .blank [Outline.spaced parts]) (closing .blank [Outline.spaced parts']) P := by
  cases parts with
  | nil =>
    cases parts' with
    | nil => exact (refl _).mono fun _ => (h.cancel ends_nil ends_nil rfl).1
    | cons part' parts' =>
      obtain ⟨h?, hopen⟩ := hparts' part' List.mem_cons_self
      rw [closing_spaced]
      exact nil_spaced hopen
  | cons part parts =>
    cases parts' with
    | nil =>
      obtain ⟨h?, hopen⟩ := hparts part List.mem_cons_self
      rw [closing_spaced]
      exact (nil_spaced hopen).symm
    | cons part' parts' => rwa [closing_spaced, closing_spaced]

end Cancels

end Outline

end FrontEnd
