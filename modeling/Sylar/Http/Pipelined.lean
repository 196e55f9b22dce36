import Mathlib.Data.List.Find
import Sylar.Lib.RagelRuns
import Sylar.Http.RequestCuts

/-!
# Requests that follow one another on a connection

Every call of `recvRequest` has a buffer of its own. It reads as much as fits,
parses one request and copies the body out of what is left in the buffer; what
stands behind the body in the buffer is gone when the call returns. The reads of
the body ask for the missing bytes only, so they never take bytes of the next
request.
-/

namespace Sylar.Http

open Sylar.Lib Sylar.Lib.Ragel Sylar.Net

section Head

/-! What a head says does not depend on the bytes behind it in the buffer. -/

/-- The bytes with which a request of the machine can end. -/
def endBytes : ByteSet := (ByteSet.byte 10).union (.byte 0)

theorem requestStart_endsIn (relaxed : Bool) :
    ∀ e ∈ requestStart relaxed, e.endsIn endBytes := by
  cases relaxed <;> decide +kernel

/-- A field value is written after a field name. -/
theorem requestStart_guarded (relaxed : Bool) :
    ∀ e ∈ requestStart relaxed, e.guarded .writeField .writeValue := by
  cases relaxed <;> decide +kernel

/-- A complete head ends with one of these bytes. -/
theorem exists_last_of_broke {env : RequestEnv} {head : Text} {s : State RequestAction}
    (h : (requestRun env head).2 = .broke s head.length) :
    ∃ us c, head = us ++ [c] ∧ endBytes.mem c := by
  have hstop : ∀ b, HttpRequestParser.stop b = true ↔ b = .done := fun b => decide_eq_true_iff
  obtain ⟨us, c, vs, hsplit, hlen, hc⟩ := scan_broke_byte HttpRequestParser.stop hstop
    (requestStart_closes env.relaxed).1 (requestStart_endsIn env.relaxed) h
  have hvs : vs = [] := by
    rw [hsplit, List.length_append, List.length_cons] at hlen
    exact List.length_eq_zero_iff.mp (by omega)
  subst hvs
  exact ⟨us, c, hsplit, hc⟩

/-- No name of a method holds a byte with which a request ends. -/
theorem httpMethodMap_endBytes :
    ∀ entry ∈ httpMethodMap, ∀ c ∈ ascii entry.2, endBytes.mem c = false := by
  have hall : (httpMethodMap.all fun entry =>
      (ascii entry.2).all fun c => !endBytes.mem c) = true := by
    decide +kernel
  intro entry hentry c hc
  have hentry := List.all_eq_true.1 hall entry hentry
  exact Bool.not_eq_true' _ ▸ List.all_eq_true.1 hentry c hc

/-- The method does not depend on what stands behind the end of the head. -/
theorem charsToHttpMethod_append {u : Text} {c : UInt8} (hc : endBytes.mem c) (more : Text) :
    charsToHttpMethod (u ++ [c] ++ more) = charsToHttpMethod (u ++ [c]) := by
  rw [charsToHttpMethod, charsToHttpMethod]
  congr 1
  apply List.find?_congr
  intro entry hentry
  rw [Bool.eq_iff_iff, List.isPrefixOf_iff_prefix, List.isPrefixOf_iff_prefix]
  constructor
  · intro hname
    obtain hshort | hlong := List.prefix_or_prefix_of_prefix hname (List.prefix_append _ more)
    · exact hshort
    · have hmem : c ∈ ascii entry.2 := hlong.subset (by simp)
      rw [httpMethodMap_endBytes entry hentry c hmem] at hc
      cases hc
  · intro hname
    exact hname.trans (List.prefix_append _ more)

/-- A token comes from one of the actions, with the marks of the actions before it. -/
theorem exists_event_of_mem_tokens {m : Marks} {es : List (Nat × RequestAction)} {t : Token}
    (ht : t ∈ tokens m es) :
    ∃ before j a after, es = before ++ (j, a) :: after ∧
      Token.of (m.afterAll before) a j = some t := by
  induction es generalizing m with
  | nil => cases ht
  | cons e es ih =>
      obtain ⟨j, a⟩ := e
      rw [tokens] at ht
      obtain ht | ht := List.mem_append.mp ht
      · exact ⟨[], j, a, es, rfl, Option.mem_toList.mp ht⟩
      · obtain ⟨before, k, b, after, rfl, hof⟩ := ih ht
        exact ⟨(j, a) :: before, k, b, after, rfl, hof⟩

theorem Marks.mark_afterAll_le {m : Marks} {p : Nat} {es : List (Nat × RequestAction)}
    (hm : m.mark ≤ p) (hes : ∀ e ∈ es, e.1 ≤ p) : (m.afterAll es).mark ≤ p := by
  induction es generalizing m with
  | nil => exact hm
  | cons e es ih =>
      obtain ⟨j, a⟩ := e
      refine ih ?_ fun e he => hes e (List.mem_cons_of_mem _ he)
      cases a with
      | mark | startValue => exact hes _ List.mem_cons_self
      | _ => exact hm

theorem Marks.field_after {m : Marks} {a : RequestAction} {j : Nat}
    (h : m.field ≠ none ∨ a = .writeField) : (m.after a j).field ≠ none := by
  cases a with
  | writeField => nofun
  | _ => exact h.resolve_right nofun

theorem Marks.field_afterAll {m : Marks} {es : List (Nat × RequestAction)}
    (h : m.field ≠ none ∨ ∃ r, (r, RequestAction.writeField) ∈ es) :
    (m.afterAll es).field ≠ none := by
  induction es generalizing m with
  | nil => exact h.resolve_right nofun
  | cons e es ih =>
      apply ih
      obtain hfield | ⟨r, hr⟩ := h
      · exact Or.inl (field_after (Or.inl hfield))
      · obtain hr | hr := List.mem_cons.mp hr
        · exact Or.inl (field_after (Or.inr (congrArg Prod.snd hr.symm)))
        · exact Or.inr ⟨r, hr⟩

/-- The method starts before the byte that ends it, and a field has a name. -/
theorem requestTokens_anchored {env : RequestEnv} {input : Text} {t : Token}
    (ht : t ∈ requestTokens env input) :
    match t with
    | .method i j => i ≤ j
    | .field _ name _ _ => name ≠ none
    | _ => True := by
  obtain ⟨before, j, a, after, hrun, hof⟩ := exists_event_of_mem_tokens ht
  have hsorted := scan_sorted HttpRequestParser.stop (requestStart env.relaxed) 0 input
  change (requestRun env input).1.Pairwise _ at hsorted
  rw [hrun, List.pairwise_append] at hsorted
  have hbefore : ∀ e ∈ before, e.1 ≤ j := fun e he => hsorted.2.2 e he _ List.mem_cons_self
  cases a with
  | requestMethod =>
      cases hof
      exact Marks.mark_afterAll_le (Nat.zero_le j) hbefore
  | writeValue =>
      cases hof
      exact Marks.field_afterAll (Or.inr
        (scan_guarded HttpRequestParser.stop (requestStart_guarded env.relaxed) hrun))
  | requestPath | queryString | fragment | httpVersion =>
      cases hof
      trivial
  | mark | startField | writeField | startValue | requestUri | startQuery | done | xml | json =>
      cases hof

/-- The windows of a head that lies at the start of one buffer. -/
def memory (length : Nat) (buffer : Text) : Windows := fun _ => ⟨0, length, buffer⟩

theorem textAt_of_take {head buffer t : Text} {offset : Nat} {length : Int}
    (hfront : buffer.take head.length = head) (h : textAt head offset length = .ok t) :
    textAt buffer offset length = .ok t := by
  rw [textAt] at h
  split at h
  · cases h
  · next hneg =>
      split at h
      · cases h
      · next hfit =>
          cases h
          have hle : head.length ≤ buffer.length := by
            rw [← hfront, List.length_take]
            exact Nat.min_le_right _ _
          rw [textAt, if_neg hneg, if_neg (by omega), ← hfront, List.drop_take, List.take_take,
            Nat.min_eq_left (by omega)]

/-- A callback on a buffer that starts with the head does what it does on the head alone. -/
theorem Token.callback_of_take {env : RequestEnv} {head buffer : Text} (length : Nat)
    {s : State RequestAction} {t : Token} {cb : Callback}
    (hfront : buffer.take head.length = head)
    (hbroke : (requestRun env head).2 = .broke s head.length)
    (ht : t ∈ requestTokens env head)
    (h : t.callback env (memory head.length head) = .ok cb) :
    ∃ cb', t.callback env (memory length buffer) = .ok cb' ∧ cb'.run = cb.run := by
  have hanchored := requestTokens_anchored ht
  have hstop := (requestTokens_ordered ht).2
  have hmap : ∀ {f : Text → Callback} {offset : Nat} {n : Int},
      f <$> textAt head offset n = .ok cb → f <$> textAt buffer offset n = .ok cb := by
    intro f offset n hx
    obtain ⟨text, htext, rfl⟩ := map_eq_ok hx
    rw [textAt_of_take hfront htext]
    rfl
  cases t with
  | method i j =>
      cases h
      refine ⟨_, rfl, ?_⟩
      obtain ⟨us, c, hhead, hc⟩ := exists_last_of_broke hbroke
      have hlen : j < us.length + 1 := by
        have hj : j < head.length := hstop
        rwa [hhead, List.length_append] at hj
      have hi : i ≤ us.length := Nat.le_of_lt_succ (Nat.lt_of_le_of_lt hanchored hlen)
      have hdrop : head.drop i = us.drop i ++ [c] := by
        rw [hhead, List.drop_append_of_le_length hi]
      have hbuffer : buffer.drop i = us.drop i ++ [c] ++ buffer.drop head.length := by
        rw [← hdrop, ← List.take_append_drop head.length buffer, hfront,
          List.drop_append_of_le_length (by rw [hhead, List.length_append]; omega),
          List.drop_left]
      funext r
      simp only [Callback.run, HttpRequestParser.onRequestMethod, memory, Window.offset]
      rw [Nat.max_eq_left (Nat.zero_le i), Nat.sub_zero, hdrop, hbuffer,
        charsToHttpMethod_append hc]
  | path i j | fragment i j | version i j => exact ⟨cb, hmap h, rfl⟩
  | query q j =>
      refine ⟨cb, ?_, rfl⟩
      cases q with
      | none => exact hmap h
      | some q => exact hmap h
  | field n name i j =>
      refine ⟨cb, ?_, rfl⟩
      cases name with
      | none => exact absurd rfl hanchored
      | some name =>
          rw [Token.callback] at h ⊢
          change (if (memory head.length head j).nameLength (some name) = 0 then _ else _) = _
          split
          · next hempty => rwa [if_pos hempty] at h
          · next hnonempty =>
              rw [if_neg hnonempty] at h
              obtain ⟨key, hkey, h⟩ := bind_eq_ok h
              obtain ⟨value, hvalue, h⟩ := bind_eq_ok h
              refine bind_of_ok (textAt_of_take hfront hkey) ?_
              exact bind_of_ok (textAt_of_take hfront hvalue) h

end Head

/-- The parser after a complete head that was parsed without an error, from memory
that holds the head and nothing else. -/
def parseHead (env : RequestEnv) (head : Text) : Option HttpRequestParser :=
  match (requestRun env head).2,
    (requestTokens env head).mapM (Token.callback env (memory head.length head)) with
  | .broke _ stop, .ok cbs =>
      let parser := runCallbacks cbs (.new env.relaxed env.queryStart)
      if stop = head.length ∧ parser.error = 0 then some parser else none
  | _, _ => none

/-- A complete request as it is sent: a head, and the body that the head announces. -/
structure Wire (env : RequestEnv) where
  head : Text
  body : Text
  parser : HttpRequestParser
  parses : parseHead env head = some parser
  announced : body.length = (HttpSession.contentLength env parser).toNat

namespace Wire

variable {env : RequestEnv}

def bytes (w : Wire env) : Text := w.head ++ w.body

/-- The request that the bytes stand for. -/
def request (w : Wire env) : HttpRequest := { w.parser.data with body := w.body }

/-- The bytes of requests that are sent one after the other. -/
def stream (ws : List (Wire env)) : Text := (ws.map bytes).flatten

end Wire

theorem calls_of_mapM {env : RequestEnv} {W : Windows} {ts : List Token} {cbs : List Callback}
    (h : ts.mapM (Token.callback env W) = .ok cbs) : Calls env W ts cbs := by
  induction ts generalizing cbs with
  | nil =>
      cases h
      exact .nil
  | cons t ts ih =>
      rw [List.mapM_cons] at h
      obtain ⟨cb, hcb, h⟩ := bind_eq_ok h
      obtain ⟨rest, hrest, h⟩ := bind_eq_ok h
      cases h
      exact .cons hcb (ih hrest)

theorem parseHead_eq_some {env : RequestEnv} {head : Text} {parser : HttpRequestParser}
    (h : parseHead env head = some parser) :
    ∃ s cbs, (requestRun env head).2 = .broke s head.length ∧
      Calls env (memory head.length head) (requestTokens env head) cbs ∧
      parser = runCallbacks cbs (.new env.relaxed env.queryStart) ∧ parser.error = 0 := by
  rw [parseHead] at h
  split at h
  · next s stop cbs hbroke hcalls =>
      simp only at h
      split at h
      · next hdone =>
          cases h
          exact ⟨s, cbs, hdone.1 ▸ hbroke, calls_of_mapM hcalls, rfl, hdone.2⟩
      · cases h
  · cases h

/-- Where every callback has a counterpart that does the same, so have all of them. -/
theorem Calls.transfer {env : RequestEnv} {W W' : Windows} {ts : List Token}
    {cbs : List Callback} (h : Calls env W ts cbs)
    (hall : ∀ t ∈ ts, ∀ cb, t.callback env W = .ok cb →
      ∃ cb', t.callback env W' = .ok cb' ∧ cb'.run = cb.run) (r : HttpRequestParser) :
    ∃ dbs, Calls env W' ts dbs ∧ runCallbacks dbs r = runCallbacks cbs r := by
  induction h generalizing r with
  | nil => exact ⟨[], .nil, rfl⟩
  | cons hcb _ ih =>
      obtain ⟨cb', hcb', hrun⟩ := hall _ List.mem_cons_self _ hcb
      obtain ⟨dbs, hdbs, hsame⟩ := ih (fun t ht => hall t (List.mem_cons_of_mem _ ht)) (cb'.run r)
      refine ⟨cb' :: dbs, .cons hcb' hdbs, hsame.trans ?_⟩
      rw [hrun]
      rfl

section Call

variable {env : RequestEnv}

/-- What the first read of a call returns. -/
def firstRead (env : RequestEnv) (pending : List Text) : Text :=
  (Socket.recv env.buffer.length pending).1

/-- The loop sees the pieces through its first read. -/
theorem recvLoop_firstRead (rounds : Nat) (r : HttpRequestParser) (pending : List Text) :
    (HttpSession.recvLoop env (rounds + 1) r env.buffer 0).exec ⟨pending, false⟩ =
      (HttpSession.recvLoop env (rounds + 1) r env.buffer 0).exec
        ⟨firstRead env pending :: (Socket.recv env.buffer.length pending).2, false⟩ := by
  have hsame : Socket.recv (env.buffer.length - 0)
      (firstRead env pending :: (Socket.recv env.buffer.length pending).2) =
        Socket.recv env.buffer.length pending := by
    have hfit : (firstRead env pending).length ≤ env.buffer.length := Socket.length_recv_le _ _
    rw [Nat.sub_zero, Socket.recv, if_pos hfit]
    rfl
  rw [HttpSession.recvLoop, Method.exec_bind_ok (Socket.exec_read _ pending),
    Method.exec_bind_ok (Socket.exec_read _ (firstRead env pending :: _)), hsame, Nat.sub_zero]

/-- The parser stops behind a head that the buffer starts with. -/
theorem execute_requestHead (w : Wire env) (unparsed : Text)
    (hfit : (w.head ++ unparsed).length ≤ env.buffer.length) :
    ∃ buffer r, (HttpRequestParser.new env.relaxed env.queryStart).execute
        (Blocks.overwrite env.buffer 0 (w.head ++ unparsed)) (w.head ++ unparsed).length =
          .ok (w.head.length, unparsed ++ buffer, r) ∧
      (unparsed ++ buffer).length = env.buffer.length ∧
      r.hasError = false ∧ r.isFinished = true ∧ r.data = w.parser.data := by
  obtain ⟨s, dbs, hbroke, hdbs, hparser, herror⟩ := parseHead_eq_some w.parses
  have hpos : 0 < w.head.length := (scan_broke_position _ hbroke).1
  have hlen : (w.head ++ unparsed).length = w.head.length + unparsed.length := List.length_append
  have hread : ∀ bs : Text, (Blocks.overwrite env.buffer 0 bs).take bs.length = bs := by
    intro bs
    simp [Blocks.overwrite]
  have hfront : (Blocks.overwrite env.buffer 0 (w.head ++ unparsed)).take w.head.length =
      w.head := by
    simp [Blocks.overwrite]
  have hscan : scan HttpRequestParser.stop (requestStart env.relaxed) 0 (w.head ++ unparsed) =
      ((requestRun env w.head).1, .broke s w.head.length) := by
    have hhead : scan HttpRequestParser.stop (requestStart env.relaxed) 0 w.head =
        ((requestRun env w.head).1, .broke s w.head.length) := Prod.ext rfl hbroke
    rw [scan_append, hhead]
  have hout := congrArg Prod.snd hscan
  obtain ⟨cbs, hcbs, hsame⟩ := hdbs.transfer
    (fun t ht cb hcb => Token.callback_of_take (w.head ++ unparsed).length hfront hbroke ht hcb)
    (.new env.relaxed env.queryStart)
  rw [← hparser] at hsame
  have hcalls : Calls env (memory (w.head ++ unparsed).length
      (Blocks.overwrite env.buffer 0 (w.head ++ unparsed)))
      (tokens .init (scan HttpRequestParser.stop (requestStart env.relaxed) 0
        (w.head ++ unparsed)).1) cbs := by
    rw [hscan]
    exact hcbs
  have hexec := (execute_ok_iff (w := readWindow env.buffer 0 (w.head ++ unparsed))
    (ready_new env _) (by omega) rfl (hread _) fun p _ => rfl).mpr ⟨cbs, hcalls, rfl, rfl, rfl⟩
  have hdrop : (w.head ++ unparsed).drop w.head.length = unparsed := List.drop_left
  rw [hsame, hout, Outcome.result, hdrop] at hexec
  refine ⟨_, _, hexec, ?_, ?_, ?_, rfl⟩
  · have hbuffer : (Blocks.overwrite env.buffer 0 (w.head ++ unparsed)).length =
        env.buffer.length := Blocks.length_overwrite (by rwa [Nat.zero_add])
    simp only [readWindow, List.length_append, List.length_drop, hbuffer]
    omega
  · rw [Bool.eq_false_iff, ne_eq, afterRead_hasError hout rfl, not_not]
    exact herror
  · have hstop : ∀ b, HttpRequestParser.stop b = true ↔ b = .done := fun b => decide_eq_true_iff
    have hcloses := requestStart_closes env.relaxed
    have hfinal := scan_closes HttpRequestParser.stop hstop 0 (w.head ++ unparsed) hcloses.1
      hcloses.2
    rw [hout] at hfinal
    change ((scan HttpRequestParser.stop (requestStart env.relaxed) 0
      (w.head ++ unparsed)).2.result 0 _).1.elim false final = true
    rw [hout]
    exact hfinal

/-- One call with the head of a request at the front of its first read: it returns
the request and takes off what belongs to the request, and all of its first read. -/
theorem exec_recvRequest (w : Wire env) {pending : List Text} {more : Text}
    (hne : ∀ piece ∈ pending, piece ≠ []) (hbytes : pending.flatten = w.bytes ++ more)
    (hhead : w.head.length ≤ (firstRead env pending).length) :
    (HttpSession.recvRequest env).exec ⟨pending, false⟩ =
      (.ok (some w.request),
        ⟨Pieces.skip (max w.bytes.length (firstRead env pending).length) pending, false⟩) := by
  obtain ⟨s, cbs, hbroke, -, -, herror⟩ := parseHead_eq_some w.parses
  have hpos : 0 < w.head.length := (scan_broke_position _ hbroke).1
  have hread : firstRead env pending ≠ [] := List.length_pos_iff.mp (hpos.trans_le hhead)
  have hfit : (firstRead env pending).length ≤ env.buffer.length := Socket.length_recv_le _ _
  have hsome : pending ≠ [] := by
    rintro rfl
    exact hread rfl
  obtain ⟨-, -, hsplit, hleft⟩ := Socket.recv_spec (n := env.buffer.length) (by omega) hne hsome
  have hrest := Socket.recv_snd env.buffer.length hne
  change firstRead env pending ++ _ = _ at hsplit
  change _ = Pieces.skip (firstRead env pending).length pending at hrest
  -- The first read is the head and the bytes behind it.
  have hprefix : w.head <+: firstRead env pending := by
    have hstart : w.head <+: pending.flatten :=
      ⟨w.body ++ more, by rw [hbytes, Wire.bytes, List.append_assoc]⟩
    exact List.prefix_of_prefix_length_le hstart ⟨_, hsplit⟩ hhead
  obtain ⟨unparsed, hunparsed⟩ := hprefix
  have hlen : w.head.length + unparsed.length = (firstRead env pending).length := by
    rw [← hunparsed, List.length_append]
  obtain ⟨buffer, r, hexec, hbuffer, hno, hfinished, hdata⟩ :=
    execute_requestHead w unparsed (by rwa [hunparsed])
  rw [hunparsed] at hexec
  have hcl : HttpSession.contentLength env r = HttpSession.contentLength env w.parser := by
    simp only [HttpSession.contentLength, HttpRequestParser.getContentLength, hdata]
  have hbody : unparsed ++ (Socket.recv env.buffer.length pending).2.flatten = w.body ++ more := by
    refine (List.append_right_inj w.head).mp ?_
    rw [← List.append_assoc, hunparsed, hsplit, hbytes, Wire.bytes, List.append_assoc]
  have hbodyLen := congrArg List.length hbody
  rw [List.length_append, List.length_append, w.announced] at hbodyLen
  have hempty : r.data.body = [] := by
    obtain ⟨s, cbs, -, -, hparser, -⟩ := parseHead_eq_some w.parses
    rw [hdata, hparser]
    exact runCallbacks_body cbs _
  have henough : (HttpSession.contentLength env r).toNat ≤
      (unparsed ++ (Socket.recv env.buffer.length pending).2.flatten).length := by
    rw [hcl, List.length_append]
    omega
  have hwhole := complete_of_length_le hempty henough
  have hrecv := exec_recvBody env r unparsed buffer _ hleft
  have hoffset : (firstRead env pending).length - w.head.length = unparsed.length := by omega
  have hroom : ¬ (r.hasError = true ∨ unparsed.length = (unparsed ++ buffer).length) := by
    rw [hno, hbuffer]
    rintro (herr | hfull)
    · cases herr
    · omega
  have hown : (unparsed ++ (Socket.recv env.buffer.length pending).2.flatten).take
      (HttpSession.contentLength env r).toNat = w.body := by
    rw [hcl, hbody, ← w.announced, List.take_left]
  have htaken : Pieces.skip ((HttpSession.contentLength env r).toNat - unparsed.length)
      (Socket.recv env.buffer.length pending).2 =
        Pieces.skip (max w.bytes.length (firstRead env pending).length) pending := by
    have hwire : w.bytes.length = w.head.length + w.body.length := List.length_append
    rw [hrest, Pieces.skip_skip, hcl, ← w.announced]
    congr 1
    omega
  rw [HttpSession.recvRequest, Method.exec_bind_ok (Method.exec_get _), recvLoop_firstRead _ _,
    exec_recvLoop env _ _ _ _ hread hfit, hexec]
  simp only [hoffset, if_neg hroom, hfinished, if_true]
  rw [hrecv, hwhole, hown, hdata, htaken]
  rfl

end Call

/-- Calls of `recvRequest` one after the other return the requests in order, and
each leaves exactly the bytes behind its request to be received. -/
def Served (env : RequestEnv) : List (Wire env) → Socket → Prop
  | [], _ => True
  | w :: ws, s =>
      ∃ t, (HttpSession.recvRequest env).exec s = (.ok (some w.request), t) ∧
        t.closed = false ∧ t.pending.flatten = Wire.stream ws ∧ Served env ws t

/-- A buffer of 64 zero bytes; three is the only length of a body. -/
def postEnv : RequestEnv :=
  { plainEnv with cast := fun text => if text = ascii "3" then some 3 else none }

/-- The request of a head that can be parsed and a body of the announced length. -/
def Wire.ofHead (env : RequestEnv) (head body : Text) (h : (parseHead env head).isSome)
    (hlen : body.length = (HttpSession.contentLength env ((parseHead env head).get h)).toNat) :
    Wire env :=
  ⟨head, body, _, (Option.some_get h).symm, hlen⟩

theorem postHead_parses :
    ∃ h : (parseHead postEnv (ascii "POST / HTTP/1.1\r\nContent-Length:3\r\n\r\n")).isSome,
      (ascii "abc").length = (HttpSession.contentLength postEnv (Option.get _ h)).toNat := by
  decide +kernel

def postWire : Wire postEnv :=
  .ofHead postEnv (ascii "POST / HTTP/1.1\r\nContent-Length:3\r\n\r\n") (ascii "abc")
    postHead_parses.fst postHead_parses.snd

theorem getHead_parses :
    ∃ h : (parseHead postEnv (ascii "GET / HTTP/1.1\r\n\r\n")).isSome,
      ([] : Text).length = (HttpSession.contentLength postEnv (Option.get _ h)).toNat := by
  decide +kernel

def getWire : Wire postEnv :=
  .ofHead postEnv (ascii "GET / HTTP/1.1\r\n\r\n") [] getHead_parses.fst getHead_parses.snd

theorem forall_split_pair {α : Type} {P : List α → α → Prop} {u v : α} (hu : P [] u)
    (hv : P [u] v) : ∀ before w after, [u, v] = before ++ w :: after → P before w := by
  rintro (_ | ⟨x, _ | ⟨y, before⟩⟩) w after h
  · cases h
    exact hu
  · cases h
    exact hv
  · simp at h

end Sylar.Http
