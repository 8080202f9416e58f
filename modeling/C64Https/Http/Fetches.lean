import C64Https.Http.RecvBody

/-!
# Fetches — one fetch after the other

`http_body_sink` stays as a fetch leaves it: `do_https_get` of a build that streams bodies to the
REU sets it, and nothing clears it.  `http_recv_body` never calls a body that the sink refused a
success; `http_get_plain` does not ask, so its successes are whole exactly as far as the region goes.
-/

namespace C64Https
namespace Http

open Word Loop Bytes

/-! ## The machine -/

structure Client where
  h : Response
  /-- `http_body_sink` -/
  bodySink : Bool

/-- A fetch, and what the network brings it; `none` if it does not get as far as a response. -/
inductive Fetch where
  /-- `do_https_get` -/
  | httpsMenu (evs : Option (List RecvEvent))
  /-- `do_https_get` of `uci-m3`, and what the ring holds when the request is sent -/
  | m3Menu (start : Input × Nat) (evs : Option (List M3Event))
  /-- `http_get` -/
  | https (evs : Option (List RecvEvent))
  /-- `do_http_get`, `http_get_plain` -/
  | plain (evs : Option (List PlainEvent))

/-- The build: the environment of the parser, and `HTTPS_BODY_TO_REU`. -/
structure Build where
  env : HttpEnv
  bodyToReu : Bool

def Build.envOf (B : Build) (bodySink : Bool) : HttpEnv :=
  { B.env with bodySink := bodySink }

/-- What a loop that has ended returns. -/
def ended {σ : Type} (bodySink : Bool) : Turn σ (Response × Bool) → Option (Client × Bool)
  | .again _ => none
  | .leave r => some (⟨r.1, bodySink⟩, r.2)

/-- A fetch that fails before its response. -/
def unanswered (B : Build) (c : Client) : Client × Bool :=
  (⟨respInit (B.envOf c.bodySink) c.h, c.bodySink⟩, false)

/-- One fetch, with the carry that its receive loop returns (`true` for carry clear); `none` as long
as the loop has not ended. -/
def fetch (B : Build) (c : Client) : Fetch → Option (Client × Bool)
  | .httpsMenu none => some (unanswered B c)
  | .httpsMenu (some evs) =>
      let h := respInit (B.envOf c.bodySink) c.h
      let sink := c.bodySink || B.bodyToReu
      ended sink (httpRecvBody (B.envOf sink) h evs)
  | .m3Menu _ none => some (unanswered B c)
  | .m3Menu start (some evs) =>
      let h := respInit (B.envOf c.bodySink) c.h
      let sink := c.bodySink || B.bodyToReu
      ended sink (m3RecvBody (B.envOf sink) h start.1 start.2 evs)
  | .https none => some (unanswered B c)
  | .https (some evs) =>
      ended c.bodySink (httpRecvBody (B.envOf c.bodySink) (respInit (B.envOf c.bodySink) c.h) evs)
  | .plain none => some (unanswered B c)
  | .plain (some evs) => ended c.bodySink (httpGetPlain (B.envOf c.bodySink) c.h evs)

/-- A fetch between the client before it and behind it, with its verdict. -/
structure Fetched where
  before : Client
  act : Fetch
  after : Client
  ok : Bool

/-- Fetches one after the other, up to one that does not end. -/
def runFetches (B : Build) : Client → List Fetch → List Fetched
  | _, [] => []
  | c, f :: fs =>
      match fetch B c f with
      | none => []
      | some r => ⟨c, f, r.1, r.2⟩ :: runFetches B r.1 fs

/-- No success with a refused write; builds without the sink have no such flag. -/
def Unrefused (B : Build) (x : Fetched) : Prop :=
  x.ok = true → (B.env.uci && x.after.h.sinkFull) = false

/-- A plain fetch with the sink on brings a payload that the body's region holds. -/
def PlainFits (B : Build) (c : Client) : Fetch → Prop
  | .plain (some evs) => B.env.uci = true → c.bodySink = true →
      (plainPayload (B.envOf true) c.h evs).length ≤ sinkRoomInit B.env
  | _ => True

/-! ## One plain fetch -/

variable {E : HttpEnv}

/-- A plain fetch ends with a finished sink. -/
theorem plain_finished (hfits : E.Fits) (huci : E.uci = true) (hsink : E.bodySink = true)
    {r : Response × Bool} (evs : List PlainEvent) :
    ∀ (t : Trace) (s : PlainState), Sunk E t s.h → feed (plainTurn E) s evs = .leave r →
      ∃ t', Finished E t' r.1 ∧ t'.body = (plainTrace E t s evs).body := by
  induction evs with
  | nil =>
      intro t s _ hrun
      cases hrun
  | cons e es ih =>
      intro t s hs hrun
      rw [feed_cons] at hrun
      unfold plainTrace
      obtain ⟨hdone, hopen⟩ :=
        recvTrace_spec hfits huci hsink (s.i.deliver (.ring e.bytes)).pending t s.h hs
      have hturn := plainTurn_post (E := E) s e rfl
      generalize hcall : httpRecvResponse E s.h (s.i.deliver (.ring e.bytes)) = call at hturn
      have hstate : (recvFrom E s.h (s.i.deliver (.ring e.bytes)).pending).1 = call.1 := by
        rw [← hcall]
        rfl
      have hflag : (recvFrom E s.h (s.i.deliver (.ring e.bytes)).pending).2.2 = call.2.2 := by
        rw [← hcall]
        rfl
      rw [hstate, hflag] at hdone hopen
      generalize recvTrace E t s.h (s.i.deliver (.ring e.bytes)).pending = t₁ at hdone hopen ⊢
      -- whichever way the turn ends, it finishes the body
      have hfinish : ∃ t', Finished E t' (bodyFinish E call.1) ∧ t'.body = t₁.body := by
        cases hflag' : call.2.2 with
        | true =>
            have hf := hdone hflag'
            exact ⟨t₁, by rw [hf.again]; exact hf, rfl⟩
        | false => exact ⟨_, (hopen hflag').finish hfits huci hsink, rfl⟩
      cases hstep : plainTurn E s e with
      | again s' =>
          rw [hstep] at hturn hrun
          rw [Turn.again_bind] at hrun
          refine ih t₁ s' ?_ hrun
          rw [hturn.2]
          exact hopen hturn.1
      | leave r' =>
          rw [hstep] at hturn hrun
          rw [Turn.leave_bind] at hrun
          cases hrun
          have hend : r.1 = bodyFinish E call.1 := hturn
          rw [hend]
          exact hfinish

/-- With the sink on, the flag says whether the payload has outgrown the region. -/
theorem plain_sinkFull_iff (hfits : E.Fits) (huci : E.uci = true) (hsink : E.bodySink = true)
    {h : Response} {evs : List PlainEvent} {r : Response × Bool}
    (hrun : httpGetPlain E h evs = .leave r) :
    r.1.sinkFull = true ↔ sinkRoomInit E < (plainPayload E h evs).length := by
  obtain ⟨t, hf, hbody⟩ := plain_finished hfits huci hsink evs .empty ⟨respInit E h, .empty, 0⟩
    (sunk_respInit huci h) hrun
  unfold plainPayload
  rw [← hbody]
  exact hf.full_iff

/-! ## Without the sink -/

/-- In buffer mode nothing is refused. -/
theorem buffered_rule (hsink : E.bodySink = false) (b : UInt8) {h : Response}
    (hno : h.sinkFull = false) :
    (parseByte E h b).Post (fun x => x.sinkFull = false) (fun x => x.sinkFull = false) := by
  refine parseByte_rule E ?_ ?_ ?_ b hno
  · intro x _ _ _ _ _ _ _ _ _ hx
    exact hx
  · intro x b hx
    unfold bodyAppend
    dsimp only
    split
    case isTrue => exact hx
    case isFalse =>
      rw [if_neg (fun hc => absurd (hsink.symm.trans hc.2.1) (by decide))]
      exact hx
  · intro x hx
    unfold bodyBegin
    dsimp only
    split
    case isTrue => rfl
    case isFalse => exact hx

theorem bodyFinish_buffered (hsink : E.bodySink = false) (h : Response) : bodyFinish E h = h := by
  unfold bodyFinish
  rw [hsink]
  cases E.uci <;> rfl

theorem plain_buffered (hsink : E.bodySink = false) {r : Response × Bool} {evs : List PlainEvent}
    {s : PlainState} (hno : s.h.sinkFull = false) (hrun : feed (plainTurn E) s evs = .leave r) :
    r.1.sinkFull = false := by
  have hpost := @feed_rule _ _ _ (plainTurn E) (fun x => x.h.sinkFull = false)
    (fun r => r.1.sinkFull = false) ?_ evs s hno
  · rw [hrun] at hpost
    exact hpost
  · intro x e hx
    have hcall : (httpRecvResponse E x.h (x.i.deliver (.ring e.bytes))).1.sinkFull = false := by
      refine recvFrom_rule E (P := fun y => y.sinkFull = false) ?_ ?_ _ x.h hx
      · intro y b hy
        exact buffered_rule hsink b hy
      · intro y hy
        rw [bodyFinish_buffered hsink]
        exact hy
    refine (plainTurn_post x e rfl).mono ?_ ?_
    · rintro x' ⟨-, hx'⟩
      rw [hx']
      exact hcall
    · intro r' hr'
      rw [hr', bodyFinish_buffered hsink]
      exact hcall

/-! ## One fetch -/

variable {B : Build} {c : Client}

theorem ended_eq_some {σ : Type} {bodySink : Bool} {t : Turn σ (Response × Bool)}
    {r : Client × Bool} (h : ended bodySink t = some r) : t = .leave (r.1.h, r.2) := by
  cases t with
  | again s => cases h
  | leave x =>
      cases h
      rfl

/-- The flag behind a successful plain fetch. -/
theorem plain_unrefused_iff (hfits : B.env.Fits) (huci : B.env.uci = true)
    {evs : List PlainEvent} {r : Client × Bool} (hrun : fetch B c (.plain (some evs)) = some r) :
    r.1.h.sinkFull = false ↔ PlainFits B c (.plain (some evs)) := by
  have hended : httpGetPlain (B.envOf c.bodySink) c.h evs = .leave (r.1.h, r.2) :=
    ended_eq_some hrun
  cases hsink : c.bodySink with
  | false =>
      rw [hsink] at hended
      have hclear : (respInit (B.envOf false) c.h).sinkFull = false := by
        unfold respInit bodyBegin
        dsimp only
        rw [if_pos (show (B.envOf false).uci = true from huci)]
      have hno : r.1.h.sinkFull = false := plain_buffered (E := B.envOf false) rfl hclear hended
      exact ⟨fun _ _ hon => absurd (hsink.symm.trans hon) (by decide), fun _ => hno⟩
  | true =>
      rw [hsink] at hended
      have hfull : r.1.h.sinkFull = true ↔
          sinkRoomInit (B.envOf true) < (plainPayload (B.envOf true) c.h evs).length :=
        plain_sinkFull_iff (E := B.envOf true) ⟨hfits.topBank, hfits.base⟩ huci rfl hended
      constructor
      · intro hno _ _
        rw [← Nat.not_lt]
        exact fun hlt => absurd (hno.symm.trans (hfull.2 hlt)) (by decide)
      · intro hle
        rw [← Bool.not_eq_true]
        exact fun hyes => absurd (hfull.1 hyes) (Nat.not_lt_of_le (hle huci hsink))

/-- A fetch whose payload fits, if it is a plain one with the sink on, has no refused write when it
succeeds. -/
theorem fetch_unrefused (hfits : B.env.Fits) {f : Fetch} {r : Client × Bool}
    (hrun : fetch B c f = some r) (hplain : PlainFits B c f) : Unrefused B ⟨c, f, r.1, r.2⟩ := by
  intro hok
  cases huci : B.env.uci with
  | false => rfl
  | true =>
      rw [Bool.true_and]
      replace hok : r.2 = true := hok
      show r.1.h.sinkFull = false
      have hpair : ∀ {x : Response}, (x, r.2) = (x, true) := by
        intro x
        rw [hok]
      rcases f with evs | ⟨start, evs⟩ | evs | evs
      · rcases evs with _ | evs
        · cases hrun
          cases hok
        · have hended := ended_eq_some hrun
          rw [hpair] at hended
          exact httpRecvBody_sinkFull (E := B.envOf (c.bodySink || B.bodyToReu)) huci hended
      · rcases evs with _ | evs
        · cases hrun
          cases hok
        · have hended := ended_eq_some hrun
          rw [hpair] at hended
          exact m3RecvBody_sinkFull (E := B.envOf (c.bodySink || B.bodyToReu)) huci hended
      · rcases evs with _ | evs
        · cases hrun
          cases hok
        · have hended := ended_eq_some hrun
          rw [hpair] at hended
          exact httpRecvBody_sinkFull (E := B.envOf c.bodySink) huci hended
      · rcases evs with _ | evs
        · cases hrun
          cases hok
        · exact (plain_unrefused_iff hfits huci hrun).2 hplain

/-! ## Runs -/

/-- Every fetch of a run is one from the client that it found. -/
theorem runFetches_mem {x : Fetched} (fs : List Fetch) :
    ∀ c : Client, x ∈ runFetches B c fs → fetch B x.before x.act = some (x.after, x.ok) := by
  induction fs with
  | nil =>
      intro c hx
      cases hx
  | cons f fs ih =>
      intro c hx
      unfold runFetches at hx
      cases hf : fetch B c f with
      | none =>
          rw [hf] at hx
          cases hx
      | some r =>
          rw [hf] at hx
          rcases List.mem_cons.1 hx with rfl | hx
          · exact hf
          · exact ih r.1 hx

/-- In every run of fetches a success has no refused write, as long as the payload of every plain
fetch made with the sink on fits the region; a plain fetch that succeeds where it does not has
one. -/
theorem runFetches_unrefused (B : Build) (hfits : B.env.Fits) (c : Client) (fs : List Fetch) :
    ((∀ x ∈ runFetches B c fs, PlainFits B x.before x.act) →
      ∀ x ∈ runFetches B c fs, Unrefused B x) ∧
    (∀ x ∈ runFetches B c fs, x.ok = true → ¬ PlainFits B x.before x.act → ¬ Unrefused B x) := by
  constructor
  · intro hall x hx
    exact fetch_unrefused hfits (runFetches_mem fs c hx) (hall x hx)
  · intro x hx hok hnot hun
    refine hnot ?_
    have hrun := runFetches_mem fs c hx
    rcases x with ⟨before, act, after, ok⟩
    cases act with
    | httpsMenu evs => exact True.intro
    | m3Menu start evs => exact True.intro
    | https evs => exact True.intro
    | plain evs =>
        cases evs with
        | none => exact True.intro
        | some evs =>
            intro huci
            have hclear := hun hok
            rw [huci, Bool.true_and] at hclear
            exact (plain_unrefused_iff hfits huci hrun).1 hclear huci

/-- A response of one byte. -/
def oneByte : Fetch :=
  .plain (some [⟨ascii "HTTP/1.1 200 OK\r\nContent-Length: 1\r\n\r\nx", false⟩])

theorem runFetches_unrefused_oneByte :
    (runFetches ⟨smallReu, true⟩ ⟨.zero, true⟩ [oneByte]).map (·.ok) = [true] ∧
    ∀ x ∈ runFetches ⟨smallReu, true⟩ ⟨.zero, true⟩ [oneByte], Unrefused ⟨smallReu, true⟩ x := by
  have hfit : (plainPayload smallReu .zero
      [⟨ascii "HTTP/1.1 200 OK\r\nContent-Length: 1\r\n\r\nx", false⟩]).length ≤
      sinkRoomInit smallReu := by
    decide +kernel
  refine ⟨by decide +kernel, (runFetches_unrefused ⟨smallReu, true⟩ ⟨by decide, by decide⟩
    ⟨.zero, true⟩ [oneByte]).1 ?_⟩
  intro x hx
  unfold runFetches at hx
  cases hf : fetch ⟨smallReu, true⟩ ⟨.zero, true⟩ oneByte with
  | none =>
      rw [hf] at hx
      cases hx
  | some r =>
      rw [hf] at hx
      rcases List.mem_cons.1 hx with rfl | hx
      · exact fun _ _ => hfit
      · cases hx

/-- A build that streams to the REU, on a machine without one. -/
def noReu : Build :=
  ⟨⟨true, false, false, 0, 1048576⟩, true⟩

/-- An HTTPS fetch of no bytes from the menu, and then a plain fetch of one. -/
def emptyThenOne : List Fetch :=
  [.httpsMenu (some [.data (ascii "HTTP/1.1 200 OK\r\nContent-Length: 0\r\n\r\n")]), oneByte]

/-- The second fetch has lost its byte, and succeeds. -/
theorem not_runFetches_unrefused :
    ¬ ∀ x ∈ runFetches noReu ⟨.zero, false⟩ emptyThenOne, Unrefused noReu x := by
  intro hall
  have hlost : (runFetches noReu ⟨.zero, false⟩ emptyThenOne).map
      (fun x => (x.ok, x.after.h.sinkFull)) = [(true, false), (true, true)] := by
    decide +kernel
  have hmem : (true, true) ∈ (runFetches noReu ⟨.zero, false⟩ emptyThenOne).map
      (fun x => (x.ok, x.after.h.sinkFull)) := by
    rw [hlost]
    decide
  obtain ⟨x, hx, hpair⟩ := List.mem_map.1 hmem
  rw [Prod.mk.injEq] at hpair
  have hclear := hall x hx hpair.1
  rw [hpair.2] at hclear
  cases hclear

end Http
end C64Https
