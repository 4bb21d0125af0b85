import FrontEnd.Proofs.Diagnosis.Block
import FrontEnd.Proofs.Lexing.Lossless

/-! Diagnostics of whole programs. What a list of tokens is refused with is borne out by its tokens,
lies within them and comes in the order of its ends. -/
namespace FrontEnd

namespace Grammar

open Parse

variable {α : Type} {s : State}

/-- A rule at the depth of a state, from the rule at every level. -/
theorem Reports.atDepth {rule : Level → Parse α} {post : α → State → Prop}
    (h : ∀ room, Reports (rule (.withRoom room)) s post) :
    Reports (Grammar.atDepth rule) s post :=
  h (maxDepth - s.depth)

theorem reports_statement (hs : s.Ready) (inBlock : Bool) :
    Reports (statement inBlock) s (IfSome (Stated s)) :=
  .atDepth fun room => (Level.withRoom_accurate room).statement hs inBlock

theorem reports_programRound (hs : s.Ready) (stmts : Array Stmt) :
    Reports (programRound stmts) s (AfterRound (fun _ t => t.Ready) fun _ t => t.Ready) := by
  unfold programRound
  refine .ite (fun _ => ?_) fun _ => .pure hs
  refine ((reports_statement hs false).attempt (ensures_statement hs.valid false)).bind ?_
  rintro (d | _ | stmt) t hst h
  · exact .recordRecover (hst.valid hs.valid) h _ fun _ hu => hu
  · obtain ⟨-, rfl, -⟩ := h
    exact .pure hs
  · exact .pure (h.1 stmt rfl).1

/-- A token that no statement starts with is reported last. -/
theorem reports_program (hs : s.Ready) : Reports program s fun _ t => t.Ready := by
  unfold program
  refine (Reports.loop (fun _ t => t.Ready) hs
    fun stmts t _ ht => reports_programRound ht stmts).bind ?_
  intro stmts t _ ht
  refine .look (.ite (fun _ => .pure ht) fun hend => .diagnosticHere ht.valid ?_)
  have hd : Reported ⟨.expectedEnd t.current.text, .single t.pos⟩ t :=
    ht.orderly.record ⟨t.pos, rfl, rfl, hend⟩ (Nat.le_refl _) (Nat.le_refl _)
  refine (Reports.record ht.valid hd).bind ?_
  intro _ u _ hu
  exact .pure hu

theorem State.ready_ofTokens (tokens : List Token) : (State.ofTokens tokens).Ready :=
  ⟨State.valid_ofTokens tokens, by rintro _ ⟨⟩, .nil, by rintro _ ⟨⟩⟩

end Grammar

/-- Diagnostics of a list of tokens that point at tokens, in the order of their ends, and into the
text if the tokens were read from one. -/
structure Diagnostic.Ordered (tokens : List Token) (ds : List Diagnostic) : Prop where
  nonempty : ds ≠ []
  within : ∀ d ∈ ds, d.span.start < d.span.stop ∧
    d.span.stop ≤ (TokenStream.close tokens).length
  sorted : ds.Pairwise fun a b => a.span.stop ≤ b.span.stop
  located : ∀ source, Token.ofSource source = .ok tokens → ∀ d ∈ ds,
    ∃ first last, tokens[d.span.start]? = some first ∧
      tokens[d.span.stop - 1]? = some last ∧
      d.span.bytes tokens = .ok ⟨first.span.start, last.span.stop⟩ ∧
      first.span.start ≤ last.span.stop ∧ last.span.stop ≤ Text.byteLength source.toList ∧
      Text.Boundary source.toList first.span.start ∧ Text.Boundary source.toList last.span.stop

namespace Program

open Grammar

variable {tokens : List Token} {ds : List Diagnostic}

/-- What a list of tokens is refused with was recorded in order, up to a token of its stream. -/
theorem recorded_of_refused (h : ofTokens tokens = .error (.refused ds)) :
    ds ≠ [] ∧ ∃ t : State, Grows (.ofTokens tokens) t ∧ t.errors = ds ∧ t.Ready := by
  have hready := State.ready_ofTokens tokens
  have hreports := reports_program hready
  have hgrows := (ensures_program hready.valid (State.depth_ofTokens_lt tokens)).grows
  unfold Reports at hreports
  unfold ofTokens at h
  cases hrun : Grammar.program (.ofTokens tokens) with
  | fault f t =>
    rw [hrun] at h
    cases h
  | error d t =>
    rw [hrun] at h hreports hgrows
    cases h
    -- the last diagnostic is not recorded yet
    have hst : Grows (.ofTokens tokens) t := hgrows
    exact ⟨by simp, _, hst.trans (.record d), rfl, hst.valid hready.valid, hreports⟩
  | ok body t =>
    rw [hrun] at hreports
    simp only [hrun] at h
    split at h
    · cases h
    · rename_i herrors
      cases h
      exact ⟨by simpa using herrors, t, hreports.1, rfl, hreports.2⟩

/-- Nothing that was recorded ends behind the tokens. -/
theorem stop_le_of_ready {t : State} (hst : Grows (.ofTokens tokens) t) (ht : t.Ready)
    {d : Diagnostic} (hd : d ∈ t.errors) :
    d.span.stop ≤ (TokenStream.close tokens).length := by
  have hstop := ht.orderly.bounded d hd
  have hpos : t.pos ≤ t.stream.limit := ht.valid
  have hlimit := (TokenStream.ofTokens tokens).limit_lt_size
  rw [hst.stream] at hpos
  rw [TokenStream.size_ofTokens] at hlimit
  have hpos' : t.pos ≤ (TokenStream.ofTokens tokens).limit := hpos
  omega

/-- A text that is refused for its grammar has tokens, which are refused for the same reasons. -/
theorem ofTokens_of_grammatical {source : String}
    (h : ofSource source = .error (.refused (.grammatical ds))) :
    ∃ tokens, Token.ofSource source = .ok tokens ∧ ofTokens tokens = .error (.refused ds) := by
  unfold ofSource at h
  split at h
  · cases h
  · cases h
  · rename_i tokens hsource
    refine ⟨tokens, hsource, ?_⟩
    split at h
    · cases h
    · rename_i hrun
      cases h
      exact hrun
    · cases h

/-- Each diagnostic says what the tokens that it points at show. -/
theorem ofTokens_justified (h : ofTokens tokens = .error (.refused ds)) :
    ∀ d ∈ ds, d.span.stop ≤ (TokenStream.close tokens).length ∧
      d.Justified (TokenStream.ofTokens tokens).lexeme := by
  obtain ⟨-, t, hst, rfl, ht⟩ := recorded_of_refused h
  intro d hd
  have hlex : t.lexeme = (TokenStream.ofTokens tokens).lexeme := hst.lexeme
  rw [← hlex]
  exact ⟨stop_le_of_ready hst ht hd, ht.orderly.justified d hd⟩

/-- The header without a name is read again as that of a function whose body is no block, and the
sum in parentheses is pointed at without them. -/
theorem ofTokens_justified_reread :
    ∃ tokens, Token.ofSource "\x7b ((1 + 2)); action (x) -> 3 \x7d;" = .ok tokens ∧
      ofTokens tokens = .error (.refused [⟨.cannotStandAlone .binary, ⟨3, 6⟩⟩,
        ⟨.actionBodyNotBlock, ⟨14, 15⟩⟩, ⟨.expectedEnd "\x7d", ⟨15, 16⟩⟩]) ∧
      Diagnostic.Justified (TokenStream.ofTokens tokens).lexeme
        ⟨.cannotStandAlone .binary, ⟨3, 6⟩⟩ ∧
      Diagnostic.Justified (TokenStream.ofTokens tokens).lexeme
        ⟨.actionBodyNotBlock, ⟨14, 15⟩⟩ := by
  have hreason : (match ofSource "\x7b ((1 + 2)); action (x) -> 3 \x7d;" with
      | .error reason => some reason
      | .ok _ => none) = some (.refused (.grammatical [⟨.cannotStandAlone .binary, ⟨3, 6⟩⟩,
        ⟨.actionBodyNotBlock, ⟨14, 15⟩⟩, ⟨.expectedEnd "\x7d", ⟨15, 16⟩⟩])) := by
    decide +kernel
  split at hreason
  · rename_i reason hrun
    cases hreason
    obtain ⟨tokens, hsource, htokens⟩ := ofTokens_of_grammatical hrun
    have hjustified := ofTokens_justified htokens
    exact ⟨tokens, hsource, htokens, (hjustified _ (by simp)).2, (hjustified _ (by simp)).2⟩
  · cases hreason

/-- Diagnostics point into the tokens and the text, the one that ends first before the others. -/
theorem ofTokens_ordered (h : ofTokens tokens = .error (.refused ds)) :
    Diagnostic.Ordered tokens ds := by
  obtain ⟨hne, t, hst, rfl, ht⟩ := recorded_of_refused h
  have hlt : ∀ d ∈ t.errors, d.span.start < d.span.stop := fun d hd =>
    (ht.orderly.justified d hd).start_lt_stop
  have hle : ∀ d ∈ t.errors, d.span.stop ≤ (TokenStream.close tokens).length := fun d hd =>
    stop_le_of_ready hst ht hd
  refine ⟨hne, fun d hd => ⟨hlt d hd, hle d hd⟩, ht.orderly.sorted, ?_⟩
  intro source hsource d hd
  have hlossless := (Token.scanned_ofSource hsource).lossless
  -- tokens that were scanned end with the end mark, so none is added to them
  have hclose : TokenStream.close tokens = tokens := by
    obtain ⟨front, rfl, -⟩ := hlossless.closed
    simp [TokenStream.close, Token.endMark, Lexeme.endMark]
  have hstop := hle d hd
  rw [hclose] at hstop
  obtain ⟨first, last, hfirst, hlast, hbytes, horder, hstart, hend⟩ :=
    hlossless.bytes (hlt d hd) hstop
  exact ⟨first, last, hfirst, hlast, hbytes, horder, hend.le, hstart, hend⟩

/-- What the block of an argument records comes before the error of the statement around it. -/
theorem ofTokens_ordered_nested :
    ∃ tokens, Token.ofSource "f(\x7b (\"é\"); import a::b; \x7d) let as;" = .ok tokens ∧
      Diagnostic.Ordered tokens [⟨.cannotStandAlone .literal, ⟨4, 5⟩⟩,
        ⟨.notAllowedInBlock .importing, ⟨7, 12⟩⟩, ⟨.missingSemicolon "let", ⟨14, 15⟩⟩] := by
  have hreason : (match ofSource "f(\x7b (\"é\"); import a::b; \x7d) let as;" with
      | .error reason => some reason
      | .ok _ => none) = some (.refused (.grammatical [⟨.cannotStandAlone .literal, ⟨4, 5⟩⟩,
        ⟨.notAllowedInBlock .importing, ⟨7, 12⟩⟩, ⟨.missingSemicolon "let", ⟨14, 15⟩⟩])) := by
    decide +kernel
  split at hreason
  · rename_i reason hrun
    cases hreason
    obtain ⟨tokens, hsource, htokens⟩ := ofTokens_of_grammatical hrun
    exact ⟨tokens, hsource, ofTokens_ordered htokens⟩
  · cases hreason

end Program

end FrontEnd
