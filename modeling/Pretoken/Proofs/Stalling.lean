import Pretoken.Proofs.Probing

/-!
# Failing for ever

Bytes that cannot be decoded may be met while a stage holds characters that it took from below, or in the middle
of a directive. All the same, nothing that was given back is left when the file is read, and a reader that cannot
decode stays where it is. So the file fails again, whatever is asked of it, and nothing above it has anything to
give before the file does.

* `Source.Stalls`: a source that fails for ever. `Source.Stalls.trigraph`, `Source.Stalls.splice`: so do the stages
  on top of it.
* `Phases.stalling`: what the phases keep up, and that a failure leaves them stalled.
* `Lexer.answers_of_stalls`: the answers of a lexer over such a source.
* **`Lexer.invalidEncoding_lasts`**: after a decoding error every call reports it again.
-/

namespace Pretoken

open ScanM (Fares)

variable {σ : Type} [Source σ] {e : Fault} {l : Location}

/-! ## Sources -/

/-- The source fails with `e` again and again; if bytes could not be decoded, it stands at them. -/
structure Source.Stalls (e : Fault) (s : σ) : Prop where
  take : ∀ log, Source.take (⟨s, log⟩ : Logged σ) = .error e ⟨s, log⟩
  place : ∀ {l}, e = .invalidEncoding l → Source.location s = l

namespace Source.Stalls

theorem trigraph {s : Trigraph σ} (h : Stalls e s.below) : Stalls e s where
  take log := by
    change Trigraph.take ⟨s, log⟩ = _
    unfold Trigraph.take
    split
    · have hreplace : Trigraph.replaceNext ⟨s.below, log⟩ = .error e ⟨s.below, log⟩ := bind_of_error (h.take log)
      exact Upkeep.Steady.trigraph_onBelow_error s.enabled hreplace
    · exact Upkeep.Steady.trigraph_onBelow_error s.enabled (h.take log)
  place := h.place

theorem splice {s : Splice σ} (h : Stalls e s.below) : Stalls e s where
  take log := by
    have hsplice : Splice.spliceAll ⟨s.below, log⟩ = .error e ⟨s.below, log⟩ :=
      Upkeep.Steady.spliceFrom_of_failed (h.take log)
    exact Upkeep.Steady.take_of_failed (t := ⟨s, log⟩) hsplice
  place := h.place

end Source.Stalls

/-! ## Files -/

namespace File

variable {Good : Glyph → Prop} (hG : Glyph.Closed Good)

/-- A reader that fails is at rest, and is asked only when nothing is left of what was given back. -/
theorem take_stalls : Fares (Fine Good LineReader.Flows) Source.take (fun _ _ => True) Source.Stalls := by
  rintro ⟨⟨reader, name, place, returned⟩, log⟩ ⟨-, hflow⟩
  change Issue _ _ (take _)
  cases returned with
  | cons g gs => exact trivial
  | nil =>
    have hread (r : LineReader) (log : List Event) :
        take ⟨⟨r, name, place, []⟩, log⟩ = readGlyph ⟨⟨r, name, place, []⟩, log⟩ := rfl
    rw [hread, readGlyph]
    cases LineReader.read_rests hflow with
    | more hr => simp only [hr, Issue]
    | ended hr => simp only [hr, Issue]
    | @failed e r hr _ hagain =>
      simp only [hr]
      refine ⟨fun log => ?_, fun he => ?_⟩
      · change take _ = _
        rw [hread, readGlyph]
        simp only [hagain]
      · rw [ReadError.locate] at he
        split at he
        · cases he
          rfl
        · cases he

/-- The upkeep of a file over bytes that arrive, with a file that fails known to be stalled. -/
def stalling : Upkeep File :=
  (upkeep hG LineReader.lasts_flows).leaving take_stalls fun hg s _ => by
    change Issue _ _ (giveBack _ s)
    rw [giveBack_ok (hG.placed hg).isEof]
    exact trivial

end File

namespace Phases

variable {Good : Glyph → Prop} (hG : Glyph.Closed Good)

/-- The same for the phases. -/
def stalling : Upkeep Phases := (File.stalling hG).trigraph.splice

variable {hG}

/-- A failure leaves the phases in a state in which they can go on, but fail for ever. -/
theorem stalls_of_failed {s : Phases} (h : (stalling hG).Failed e s) : (stalling hG).Fine s ∧ Source.Stalls e s := by
  obtain ⟨⟨hfine, hstalls⟩, hend⟩ := h
  exact ⟨⟨hfine, hend⟩, hstalls.trigraph.splice⟩

end Phases

/-! ## Lexers -/

/-- What a call returns where the bytes at `l` cannot be decoded. -/
def Request.refusal (l : Location) : Request → Reply
  | next => .token (.error (.invalidEncoding l))
  | probe => .ending (.error (.invalidEncoding l))
  | place => .place l

namespace Lexer

section

variable [Alphabet]

theorem answer_of_stalls {m : Logged (Lexer σ)} (h : Source.Stalls (.invalidEncoding l) m.state.source)
    (request : Request) : answer request m = .ok (request.refusal l) m := by
  cases request with
  | next => rw [answer_next, nextToken_of_failed (h.take m.log)]; rfl
  | probe => rw [answer_probe, eof?_of_failed (h.take m.log)]; rfl
  | place =>
    change EStateM.Result.ok (Reply.place (Source.location m.state.source)) m = _
    rw [h.place rfl]
    rfl

/-- **A lexer over a stalled source refuses every call.** -/
theorem answers_of_stalls {m : Logged (Lexer σ)} (h : Source.Stalls (.invalidEncoding l) m.state.source)
    (requests : List Request) : answers requests m = .ok (requests.map (Request.refusal l)) m := by
  induction requests with
  | nil => rfl
  | cons request requests ih => exact answers_cons (answer_of_stalls h request) ih

/-- The first call that reports a decoding error is followed by refusals only. -/
theorem answers_after_misread {U : Upkeep σ} (hU : ∀ {e s}, U.Failed e s → U.Fine s ∧ Source.Stalls e s)
    (requests : List Request) {m : Logged (Lexer σ)} (h : U.Fine m.state.source) :
    ∃ replies m', answers requests m = .ok replies m' ∧
      ∀ i l, replies[i]?.bind Reply.fault? = some (.invalidEncoding l) →
        replies.drop (i + 1) = (requests.drop (i + 1)).map (Request.refusal l) := by
  induction requests generalizing m with
  | nil => exact ⟨[], m, rfl, fun i l hi => by simp at hi⟩
  | cons request requests ih =>
    obtain ⟨reply, m₁, h₁⟩ := exists_answer request m
    have hfine : U.Fine m₁.state.source := fine_of_answer (fun hs => (hU hs).1) h h₁
    obtain ⟨replies, m', hm', hall⟩ := ih hfine
    refine ⟨reply :: replies, m', answers_cons h₁ hm', fun i l hi => ?_⟩
    cases i with
    | succ i => exact hall i l hi
    | zero =>
      have hstalls := (hU (failed_of_answer h h₁ hi)).2
      cases hm'.symm.trans (answers_of_stalls hstalls requests)
      rfl

/-- **A decoding error is permanent.** Whatever bytes arrive, in whatever pieces, and whatever is asked of the
lexer: once the next token or the end was asked for and bytes at some location could not be decoded, each later
call for a token or for the end fails in the same way, with the same location, and the lexer stands there. -/
theorem invalidEncoding_lasts {feed : Feed} (h : feed.Flows) (name : Option String) (trigraphs : Bool)
    (reserved : List String) (requests : List Request) :
    ∃ replies : List Reply,
      ((answers requests).run (ofFile (.ofFeed feed name) trigraphs reserved)).1 = .ok replies ∧
      ∀ (i : Nat) (l : Location), replies[i]?.bind Reply.fault? = some (.invalidEncoding l) →
        replies.drop (i + 1) = (requests.drop (i + 1)).map (Request.refusal l) := by
  have hstart := Phases.fine_ofFile Glyph.closed_placed LineReader.lasts_flows h name trigraphs
  obtain ⟨replies, m', hm', hall⟩ := answers_after_misread
    (U := Phases.stalling Glyph.closed_placed) Phases.stalls_of_failed requests
    (m := ⟨ofFile (.ofFeed feed name) trigraphs reserved, []⟩) hstart
  exact ⟨replies, by rw [ScanM.run_of_ok hm'], hall⟩

end

/-- A byte that is no text in the middle of a directive: the second call fails, and so do all after it. -/
theorem invalidEncoding_lasts_directive :
    Feed.Flows [.bytes [35, 97], .bytes [0xFF, 98]] ∧
    ∃ replies : List Reply,
      ((answers [.probe, .next, .next, .probe, .place]).run
        (ofFile (.ofFeed [.bytes [35, 97], .bytes [0xFF, 98]] none) true [])).1 = .ok replies ∧
      replies.drop 2 = [.token (.error (.invalidEncoding (Location.origin.after ['#', 'a']))),
        .ending (.error (.invalidEncoding (Location.origin.after ['#', 'a']))),
        .place (Location.origin.after ['#', 'a'])] := by
  have h : Feed.Flows [.bytes [35, 97], .bytes [0xFF, 98]] := by decide
  obtain ⟨replies, hrun, hall⟩ := invalidEncoding_lasts h none true [] [.probe, .next, .next, .probe, .place]
  have hfault : ((answers [.probe, .next, .next, .probe, .place]).run
      (ofFile (.ofFeed [.bytes [35, 97], .bytes [0xFF, 98]] none) true [])).1.toOption.bind
        (fun replies => replies[1]?.bind Reply.fault?) =
      some (.invalidEncoding (Location.origin.after ['#', 'a'])) := by decide +kernel
  rw [hrun] at hfault
  exact ⟨h, replies, hrun, hall 1 _ hfault⟩

end Lexer

end Pretoken
