import Sylar.Http.RequestReads

/-!
# When a request survives the way its bytes arrive

A request that one read delivers and a request that arrives in several reads go
through the same states of the machine and have the same tokens. They are the
same request exactly when what the callbacks are handed makes no difference:
for the path, the query and the fragment this means that no read starts inside
them.
-/

namespace Sylar.Http

open Sylar.Lib Sylar.Lib.Ragel Sylar.Net

/-- The run of the request machine over an input. -/
def requestRun (env : RequestEnv) (input : Text) :
    List (Nat × RequestAction) × Outcome RequestAction :=
  scan HttpRequestParser.stop (requestStart env.relaxed) 0 input

/-- The tokens of an input, whatever the reads are. -/
def requestTokens (env : RequestEnv) (input : Text) : List Token :=
  tokens .init (requestRun env input).1

/-- The windows of the reads of a request. -/
def windows (env : RequestEnv) (reads : List Text) : Windows := window env.buffer 0 reads

theorem requestStart_closes (relaxed : Bool) :
    (∀ e ∈ requestStart relaxed, e.Closes .done) ∧ final (requestStart relaxed) = false := by
  obtain ⟨ord, f, hstart, hf⟩ : ∃ ord f, requestStart relaxed = [.finish ord .done f] ∧
      f.mentions .done = false := by
    cases relaxed <;> exact ⟨_, _, rfl, by decide +kernel⟩
  constructor
  · intro e he
    rw [hstart] at he
    exact ⟨ord, f, List.mem_singleton.mp he, hf⟩
  · cases relaxed <;> decide +kernel

theorem ready_new (env : RequestEnv) (W : Windows) :
    Ready env W 0 .init (.new env.relaxed env.queryStart) (requestStart env.relaxed) :=
  ⟨rfl, (requestStart_closes _).1, (requestStart_closes _).2,
    ⟨Nat.le_refl 0, Nat.le_refl 0, fun _ _ h => nomatch h⟩, rfl⟩

/-- What `recvRequest` returns when the given reads arrive on a new connection. -/
def received (env : RequestEnv) (reads : List Text) : Except Fault (Option HttpRequest) :=
  ((HttpSession.recvRequest env).exec ⟨reads, false⟩).1

theorem length_le_length_flatten {reads : List Text} (hne : ∀ bs ∈ reads, bs ≠ []) :
    reads.length ≤ reads.flatten.length := by
  induction reads with
  | nil => exact Nat.le_refl 0
  | cons bs reads ih =>
      have hpos : 0 < bs.length := List.length_pos_iff.mpr (hne bs List.mem_cons_self)
      have htail := ih fun b hb => hne b (List.mem_cons_of_mem _ hb)
      rw [List.flatten_cons, List.length_append, List.length_cons]
      omega

theorem received_ok_iff {env : RequestEnv} {reads : List Text} {result : HttpRequest}
    (hne : ∀ bs ∈ reads, bs ≠ []) (hfit : ∀ bs ∈ reads, bs.length ≤ env.buffer.length) :
    received env reads = .ok (some result) ↔
      ∃ s' stop cbs, (requestRun env reads.flatten).2 = .broke s' stop ∧
        Calls env (windows env reads) (requestTokens env reads.flatten) cbs ∧
        (runCallbacks cbs (.new env.relaxed env.queryStart)).error = 0 ∧
        complete env (runCallbacks cbs (.new env.relaxed env.queryStart))
          (reads.flatten.drop stop) = some result := by
  exact recvLoop_ok_iff reads (ready_new env (windows env reads)) hne hfit
    (Nat.lt_succ_of_le (length_le_length_flatten hne)) fun j _ => rfl

section Windows

variable {buffer : Text} {c : Nat}

/-- The window of a position starts at or before it. -/
theorem window_start_le {rs : List Text} {j : Nat} (hc : c ≤ j) (hj : j < c + rs.flatten.length) :
    c ≤ (window buffer c rs j).start ∧ (window buffer c rs j).start ≤ j := by
  induction rs generalizing buffer c with
  | nil => simp at hj; omega
  | cons r rs ih =>
      rw [List.flatten_cons, List.length_append] at hj
      rw [window]
      split
      · exact ⟨Nat.le_refl c, hc⟩
      · have hle : c + r.length ≤ j := by omega
        obtain ⟨hstart, hend⟩ := ih hle (by omega)
        exact ⟨Nat.le_of_add_right_le hstart, hend⟩

/-- Between the start of a window and its position there is no other window. -/
theorem window_eq_of_le {rs : List Text} {j q : Nat} (hj : j < c + rs.flatten.length)
    (hq : (window buffer c rs j).start ≤ q) (hqj : q ≤ j) :
    window buffer c rs q = window buffer c rs j := by
  induction rs generalizing buffer c with
  | nil => rfl
  | cons r rs ih =>
      rw [List.flatten_cons, List.length_append] at hj
      rw [window, window]
      rw [window] at hq
      by_cases hhere : j < c + r.length
      · rw [if_pos hhere, if_pos (by omega)]
      · rw [if_neg hhere] at hq ⊢
        have hstart : c + r.length ≤
            (window (Blocks.overwrite buffer 0 r) (c + r.length) rs j).start :=
          (window_start_le (by omega) (by omega)).1
        rw [if_neg (by omega)]
        exact ih (by omega) hq

/-- Up to its position a window holds the bytes of the input. -/
theorem window_buffer {rs : List Text} {j k : Nat} (hc : c ≤ j)
    (hj : j < c + rs.flatten.length) (hk : (window buffer c rs j).start ≤ k) (hkj : k ≤ j) :
    ((window buffer c rs j).buffer.drop (k - (window buffer c rs j).start)).take (j - k) =
      (rs.flatten.drop (k - c)).take (j - k) := by
  induction rs generalizing buffer c with
  | nil => simp at hj; omega
  | cons r rs ih =>
      rw [List.flatten_cons, List.length_append] at hj
      by_cases hhere : j < c + r.length
      · rw [window, if_pos hhere] at hk ⊢
        simp only [Blocks.overwrite, List.take_zero, List.nil_append, List.flatten_cons]
        rw [List.drop_append_of_le_length (by simp only at hk; omega),
          List.drop_append_of_le_length (by simp only at hk; omega),
          List.take_append_of_le_length (by rw [List.length_drop]; simp only at hk; omega),
          List.take_append_of_le_length (by rw [List.length_drop]; simp only at hk; omega)]
      · rw [window, if_neg hhere] at hk ⊢
        have hstart : c + r.length ≤
            (window (Blocks.overwrite buffer 0 r) (c + r.length) rs j).start :=
          (window_start_le (by omega) (by omega)).1
        rw [ih (by omega) (by omega) hk, List.flatten_cons, List.drop_append,
          List.drop_eq_nil_of_le (by omega : r.length ≤ k - c), List.nil_append, Nat.sub_sub]

end Windows

def Token.stop : Token → Nat
  | .method _ j | .path _ j | .query _ j | .fragment _ j | .version _ j | .field _ _ _ j => j

/-- The positions of a token do not come after the byte at which it is used. -/
def Token.Ordered : Token → Prop
  | .path i j | .fragment i j => i ≤ j
  | .query q j => q.getD 0 ≤ j
  | _ => True

/-- Positions recorded up to the byte at `p`. -/
def Marks.UpTo (m : Marks) (p : Nat) : Prop := m.mark ≤ p ∧ m.query.getD 0 ≤ p

theorem Token.of_ordered {m : Marks} {a : RequestAction} {j : Nat} {t : Token} (hm : m.UpTo j)
    (ht : Token.of m a j = some t) : t.Ordered ∧ t.stop = j := by
  cases a <;> cases ht
  · exact ⟨trivial, rfl⟩
  · exact ⟨trivial, rfl⟩
  · exact ⟨hm.1, rfl⟩
  · exact ⟨hm.2, rfl⟩
  · exact ⟨trivial, rfl⟩
  · exact ⟨hm.1, rfl⟩

theorem tokens_ordered {m : Marks} {p : Nat} (es : List (Nat × RequestAction))
    (hsorted : es.Pairwise fun e f => e.1 ≤ f.1) (hfrom : ∀ e ∈ es, p ≤ e.1) (hm : m.UpTo p) :
    ∀ t ∈ tokens m es, t.Ordered ∧ ∃ e ∈ es, t.stop = e.1 := by
  induction es generalizing m p with
  | nil => intro t ht; cases ht
  | cons e es ih =>
      obtain ⟨j, a⟩ := e
      have hp : p ≤ j := hfrom (j, a) List.mem_cons_self
      obtain ⟨hhead, htail⟩ := List.pairwise_cons.mp hsorted
      have hupto : m.UpTo j := ⟨hm.1.trans hp, hm.2.trans hp⟩
      have hafter : (m.after a j).UpTo j := by
        cases a with
        | mark | startValue => exact ⟨Nat.le_refl j, hupto.2⟩
        | startQuery => exact ⟨hupto.1, Nat.le_refl j⟩
        | _ => exact hupto
      intro t ht
      rw [tokens] at ht
      obtain ht | ht := List.mem_append.mp ht
      · obtain ⟨hord, hstop⟩ := Token.of_ordered hupto (Option.mem_toList.mp ht)
        exact ⟨hord, (j, a), List.mem_cons_self, hstop⟩
      · obtain ⟨hord, e, he, hstop⟩ := ih htail hhead hafter t ht
        exact ⟨hord, e, List.mem_cons_of_mem _ he, hstop⟩

theorem requestTokens_ordered {env : RequestEnv} {input : Text} {t : Token}
    (ht : t ∈ requestTokens env input) : t.Ordered ∧ t.stop < input.length := by
  obtain ⟨hord, e, he, hstop⟩ := tokens_ordered (p := 0) (m := .init) _ (scan_sorted _ _ _ _)
    (fun _ _ => Nat.zero_le _) ⟨Nat.le_refl 0, Nat.le_refl 0⟩ t ht
  refine ⟨hord, ?_⟩
  rw [hstop, ← Nat.zero_add input.length]
  exact (scan_position _ he).2

section Spans

variable {σ : Type}

/-- The last of the spans that a function finds in some tokens. -/
def lastSpan (span : Token → Option σ) : List Token → Option σ
  | [] => none
  | t :: ts => (lastSpan span ts).or (span t)

theorem exists_of_lastSpan {span : Token → Option σ} {ts : List Token} {x : σ}
    (h : lastSpan span ts = some x) : ∃ t ∈ ts, span t = some x := by
  induction ts with
  | nil => cases h
  | cons t ts ih =>
      rw [lastSpan, Option.or_eq_some_iff] at h
      obtain h | ⟨_, h⟩ := h
      · obtain ⟨u, hu, hx⟩ := ih h
        exact ⟨u, List.mem_cons_of_mem _ hu, hx⟩
      · exact ⟨t, List.mem_cons_self, h⟩

/-- A field of the request that one kind of callback sets holds the text of the
last token of that kind. -/
theorem field_eq_last {env : RequestEnv} {W : Windows} {ts : List Token} {cbs : List Callback}
    {get : HttpRequest → Text} {span : Token → Option σ} {val : σ → Text}
    (h : Calls env W ts cbs)
    (hstep : ∀ t ∈ ts, ∀ cb r, t.callback env W = .ok cb →
      get (cb.run r).data = (span t).elim (get r.data) val) (r : HttpRequestParser) :
    get (runCallbacks cbs r).data = (lastSpan span ts).elim (get r.data) val := by
  induction h generalizing r with
  | nil => rfl
  | @cons t cb ts cbs hhead _ ih =>
      have hrest := ih (fun u hu => hstep u (List.mem_cons_of_mem _ hu)) (cb.run r)
      rw [hstep t List.mem_cons_self cb r hhead] at hrest
      refine hrest.trans ?_
      rw [lastSpan]
      cases lastSpan span ts with
      | none => rfl
      | some x => rfl

end Spans

def Token.pathSpan : Token → Option (Nat × Nat)
  | .path i j => some (i, j)
  | _ => none

def Token.fragmentSpan : Token → Option (Nat × Nat)
  | .fragment i j => some (i, j)
  | _ => none

def Token.querySpan : Token → Option (Option Nat × Nat)
  | .query q j => some (q, j)
  | _ => none

/-- The callbacks that the given reads lead to. -/
def callbacks (env : RequestEnv) (reads : List Text) : List Callback :=
  (requestTokens env reads.flatten).filterMap fun t =>
    (t.callback env (windows env reads)).toOption

/-- The request that these callbacks make. -/
def built (env : RequestEnv) (reads : List Text) : HttpRequest :=
  (runCallbacks (callbacks env reads) (.new env.relaxed env.queryStart)).data

/-- The way in which the bytes arrive makes no difference. -/
structure Kept (env : RequestEnv) (reads : List Text) : Prop where
  /-- What the reads leave of a token is enough for its callback: the letters of
  a method name a method, a version is 1.0 or 1.1, a field name is not empty, and
  the length of the query is not negative. -/
  accepted : ∀ t ∈ requestTokens env reads.flatten,
    ∃ cb, t.callback env (windows env reads) = .ok cb ∧ cb.Accepted
  /-- What is left of the method names the same method. -/
  method : (built env reads).method = (built env [reads.flatten]).method
  /-- What is left of the version is the same version. -/
  version : (built env reads).version = (built env [reads.flatten]).version
  /-- What is left of the header fields makes the same map. -/
  headers : (built env reads).headers = (built env [reads.flatten]).headers
  close : (built env reads).close = (built env [reads.flatten]).close
  /-- No read starts inside the path, the query or the fragment. -/
  path : ∀ i j, lastSpan Token.pathSpan (requestTokens env reads.flatten) = some (i, j) →
    (windows env reads j).start ≤ i
  query : ∀ q j, lastSpan Token.querySpan (requestTokens env reads.flatten) = some (q, j) →
    (windows env reads j).start ≤ q.getD 0
  fragment : ∀ i j, lastSpan Token.fragmentSpan (requestTokens env reads.flatten) = some (i, j) →
    (windows env reads j).start ≤ i

section Texts

variable {env : RequestEnv} {reads : List Text}

/-- The whole input as one read. -/
theorem windows_single {input : Text} {j : Nat} (hj : j < input.length) :
    (windows env [input] j).start = 0 := by
  rw [windows, window, if_pos (by omega)]

theorem windows_start_le {j : Nat} (hj : j < reads.flatten.length) :
    (windows env reads j).start ≤ j :=
  (window_start_le (Nat.zero_le j) (by omega)).2

/-- What the reads leave of the input from `i` to `j` when the byte at `j` is parsed. -/
def part (env : RequestEnv) (reads : List Text) (i j : Nat) : Text :=
  (reads.flatten.drop (max i (windows env reads j).start)).take
    (j - max i (windows env reads j).start)

/-- Where the query callback finds the query that ends at `j`. -/
def queryFrom (env : RequestEnv) (reads : List Text) (q : Option Nat) (j : Nat) : Nat :=
  (windows env reads j).start + queryOffset env (windows env reads) q

/-- What the query callback gets. -/
def queryPart (env : RequestEnv) (reads : List Text) (q : Option Nat) (j : Nat) : Text :=
  (reads.flatten.drop (queryFrom env reads q j)).take (j - queryFrom env reads q j)

theorem text_eq_part {i j : Nat} {t : Text} (hj : j < reads.flatten.length) (hij : i ≤ j)
    (h : Token.callback.text (windows env reads j) i j = .ok t) : t = part env reads i j := by
  have hstart : (windows env reads j).start ≤ j := windows_start_le hj
  obtain ⟨-, rfl⟩ := textAt_ok h
  have hlen : (((j - (windows env reads j).start : Nat) : Int) -
      ((windows env reads j).offset i : Nat)).toNat = j - max i (windows env reads j).start := by
    rw [Window.offset]
    omega
  rw [hlen, Window.offset]
  exact window_buffer (c := 0) (Nat.zero_le j) (by omega) (Nat.le_max_right _ _) (by omega)

theorem text_eq_queryPart {q : Option Nat} {j : Nat} {t : Text} (hj : j < reads.flatten.length)
    (h : textAt (windows env reads j).buffer (queryOffset env (windows env reads) q)
      (((j - (windows env reads j).start : Nat) : Int) -
        queryOffset env (windows env reads) q) = .ok t) :
    queryFrom env reads q j ≤ j ∧ t = queryPart env reads q j := by
  have hstart : (windows env reads j).start ≤ j := windows_start_le hj
  obtain ⟨hpos, rfl⟩ := textAt_ok h
  have hkj : queryFrom env reads q j ≤ j := by
    rw [queryFrom]
    omega
  refine ⟨hkj, ?_⟩
  have hoffset : queryOffset env (windows env reads) q =
      queryFrom env reads q j - (windows env reads j).start :=
    (Nat.add_sub_cancel_left _ _).symm
  have hlen : (((j - (windows env reads j).start : Nat) : Int) -
      queryOffset env (windows env reads) q).toNat = j - queryFrom env reads q j := by
    rw [queryFrom]
    omega
  rw [hlen, hoffset]
  exact window_buffer (c := 0) (Nat.zero_le j) (by omega) (Nat.le_add_right _ _) hkj

/-- Parts of one input that end at the same byte are equal when they start at the same byte. -/
theorem part_eq_iff {input : Text} {j k l : Nat} (hj : j < input.length) (hk : k ≤ j)
    (hl : l ≤ j) :
    (input.drop k).take (j - k) = (input.drop l).take (j - l) ↔ k = l := by
  have hlen : ∀ k ≤ j, ((input.drop k).take (j - k)).length = j - k := by
    intro k hk
    rw [List.length_take, List.length_drop]
    omega
  constructor
  · intro hsame
    have hlens := congrArg List.length hsame
    rw [hlen k hk, hlen l hl] at hlens
    omega
  · rintro rfl
    rfl

/-- A text is the one that a single read gives exactly when no read starts inside it. -/
theorem part_same_iff {i j : Nat} (hj : j < reads.flatten.length) (hij : i ≤ j) :
    part env reads i j = part env [reads.flatten] i j ↔
      (windows env reads j).start ≤ i := by
  have hstart : (windows env reads j).start ≤ j := windows_start_le hj
  have hflat : [reads.flatten].flatten = reads.flatten := by simp
  rw [part, part, hflat, windows_single hj, Nat.max_eq_left (Nat.zero_le i),
    part_eq_iff hj (by omega) hij]
  omega

/-- The same for the query, whose offset counts from the read it was recorded in. -/
theorem queryPart_same_iff {q : Option Nat} {j : Nat} (hj : j < reads.flatten.length)
    (hq : q.getD 0 ≤ j) (hk : queryFrom env reads q j ≤ j)
    (hl : queryFrom env [reads.flatten] q j ≤ j) :
    queryPart env reads q j = queryPart env [reads.flatten] q j ↔
      (windows env reads j).start ≤ q.getD 0 := by
  have hflat : [reads.flatten].flatten = reads.flatten := by simp
  rw [queryPart, queryPart, hflat, part_eq_iff hj hk hl, queryFrom, queryFrom, windows_single hj,
    Nat.zero_add]
  cases q with
  | none =>
      simp only [queryOffset, Option.getD_none]
      omega
  | some q =>
      simp only [Option.getD_some] at hq ⊢
      have hqlt : q < reads.flatten.length := by omega
      have hqstart : (windows env reads q).start ≤ q := windows_start_le hqlt
      simp only [queryOffset, windows_single hqlt, Nat.sub_zero]
      constructor
      · intro hsame
        omega
      · intro hle
        have hwin : windows env reads q = windows env reads j :=
          window_eq_of_le (by omega) hle hq
        rw [hwin]
        omega

end Texts

section Fields

variable {env : RequestEnv} {reads : List Text} {cbs : List Callback}

theorem Calls.filterMap_eq {W : Windows} {ts : List Token} (h : Calls env W ts cbs) :
    (ts.filterMap fun t => (t.callback env W).toOption) = cbs := by
  induction h with
  | nil => rfl
  | cons hhead _ ih =>
      rw [List.filterMap_cons, hhead, ih]
      rfl

theorem runCallbacks_error_iff (cbs : List Callback) (r : HttpRequestParser) :
    (runCallbacks cbs r).error = 0 ↔ r.error = 0 ∧ ∀ cb ∈ cbs, cb.Accepted := by
  induction cbs generalizing r with
  | nil => simp [runCallbacks]
  | cons cb cbs ih =>
      have hhead : (cb.run r).error = 0 ↔ r.error = 0 ∧ cb.Accepted := by
        cases cb with
        | method memory =>
            simp only [Callback.run, HttpRequestParser.onRequestMethod, Callback.Accepted]
            cases charsToHttpMethod memory <;> simp
        | version text =>
            simp only [Callback.run, HttpRequestParser.onRequestVersion, Callback.Accepted]
            cases HttpRequestParser.versionOf text <;> simp
        | emptyField => simp [Callback.run, Callback.Accepted]
        | path text | query text | fragment text | field key value =>
            simp [Callback.run, Callback.Accepted, HttpRequestParser.onRequestPath,
              HttpRequestParser.onRequestQuery, HttpRequestParser.onRequestFragment,
              HttpRequestParser.onRequestHttpField]
      refine (ih (cb.run r)).trans ?_
      rw [hhead, List.forall_mem_cons, and_assoc]

theorem runCallbacks_body (cbs : List Callback) (r : HttpRequestParser) :
    (runCallbacks cbs r).data.body = r.data.body := by
  induction cbs generalizing r with
  | nil => rfl
  | cons cb cbs ih =>
      refine (ih (cb.run r)).trans ?_
      cases cb with
      | method memory =>
          simp only [Callback.run, HttpRequestParser.onRequestMethod]
          split <;> rfl
      | version text =>
          simp only [Callback.run, HttpRequestParser.onRequestVersion]
          split <;> rfl
      | path text | query text | fragment text | field key value | emptyField => rfl

/-- A callback for something else than a path, a query or a fragment keeps all three. -/
theorem Callback.run_texts {cb : Callback} (r : HttpRequestParser)
    (h : (∃ memory, cb = .method memory) ∨ (∃ text, cb = .version text) ∨ cb = .emptyField ∨
      ∃ key value, cb = .field key value) :
    (cb.run r).data.path = r.data.path ∧ (cb.run r).data.query = r.data.query ∧
      (cb.run r).data.fragment = r.data.fragment := by
  obtain ⟨memory, rfl⟩ | ⟨text, rfl⟩ | rfl | ⟨key, value, rfl⟩ := h
  · simp only [Callback.run, HttpRequestParser.onRequestMethod]
    split <;> exact ⟨rfl, rfl, rfl⟩
  · simp only [Callback.run, HttpRequestParser.onRequestVersion]
    split <;> exact ⟨rfl, rfl, rfl⟩
  · exact ⟨rfl, rfl, rfl⟩
  · exact ⟨rfl, rfl, rfl⟩

/-- The path, the query and the fragment after one callback. -/
theorem run_texts_eq {t : Token} {cb : Callback} (ht : t ∈ requestTokens env reads.flatten)
    (hcb : t.callback env (windows env reads) = .ok cb) (r : HttpRequestParser) :
    (cb.run r).data.path = t.pathSpan.elim r.data.path (fun x => part env reads x.1 x.2) ∧
    (cb.run r).data.query = t.querySpan.elim r.data.query
      (fun x => queryPart env reads x.1 x.2) ∧
    (cb.run r).data.fragment = t.fragmentSpan.elim r.data.fragment
      (fun x => part env reads x.1 x.2) := by
  obtain ⟨hord, hstop⟩ := requestTokens_ordered ht
  have hinv := Token.callback_eq_ok hcb
  cases t with
  | path i j =>
      obtain ⟨text, htext, rfl⟩ := hinv
      exact ⟨text_eq_part hstop hord htext, rfl, rfl⟩
  | fragment i j =>
      obtain ⟨text, htext, rfl⟩ := hinv
      exact ⟨rfl, rfl, text_eq_part hstop hord htext⟩
  | query q j =>
      obtain ⟨text, htext, rfl⟩ := hinv
      exact ⟨rfl, (text_eq_queryPart hstop htext).2, rfl⟩
  | method i j => exact Callback.run_texts r (Or.inl hinv)
  | version i j => exact Callback.run_texts r (Or.inr (Or.inl hinv))
  | field n name i j => exact Callback.run_texts r (Or.inr (Or.inr hinv))

/-- After all callbacks they are what the reads leave of the last path, query and fragment. -/
theorem texts_eq (h : Calls env (windows env reads) (requestTokens env reads.flatten) cbs)
    (r : HttpRequestParser) :
    (runCallbacks cbs r).data.path =
      (lastSpan Token.pathSpan (requestTokens env reads.flatten)).elim r.data.path
        (fun x => part env reads x.1 x.2) ∧
    (runCallbacks cbs r).data.query =
      (lastSpan Token.querySpan (requestTokens env reads.flatten)).elim r.data.query
        (fun x => queryPart env reads x.1 x.2) ∧
    (runCallbacks cbs r).data.fragment =
      (lastSpan Token.fragmentSpan (requestTokens env reads.flatten)).elim r.data.fragment
        (fun x => part env reads x.1 x.2) := by
  refine ⟨?_, ?_, ?_⟩
  · exact field_eq_last h (fun t ht cb r hcb => (run_texts_eq ht hcb r).1) r
  · exact field_eq_last h (fun t ht cb r hcb => (run_texts_eq ht hcb r).2.1) r
  · exact field_eq_last h (fun t ht cb r hcb => (run_texts_eq ht hcb r).2.2) r

/-- Two choices by the last span agree when they agree on that span. -/
theorem elim_eq_iff {σ : Type} {x : Option σ} {d : Text} {f g : σ → Text} :
    x.elim d f = x.elim d g ↔ ∀ y, x = some y → f y = g y := by
  cases x with
  | none => simp
  | some y => simp

theorem Calls.exists_callback {W : Windows} {ts : List Token} {t : Token}
    (h : Calls env W ts cbs) (ht : t ∈ ts) : ∃ cb ∈ cbs, t.callback env W = .ok cb := by
  induction h with
  | nil => cases ht
  | cons hhead _ ih =>
      obtain rfl | ht := List.mem_cons.mp ht
      · exact ⟨_, List.mem_cons_self, hhead⟩
      · obtain ⟨cb, hcb, hcall⟩ := ih ht
        exact ⟨cb, List.mem_cons_of_mem _ hcb, hcall⟩

theorem exists_calls {W : Windows} {ts : List Token}
    (h : ∀ t ∈ ts, ∃ cb, t.callback env W = .ok cb ∧ cb.Accepted) :
    ∃ cbs, Calls env W ts cbs ∧ ∀ cb ∈ cbs, cb.Accepted := by
  induction ts with
  | nil => exact ⟨[], .nil, fun cb hcb => nomatch hcb⟩
  | cons t ts ih =>
      obtain ⟨cb, hcb, hacc⟩ := h t List.mem_cons_self
      obtain ⟨cbs, hcbs, haccs⟩ := ih fun u hu => h u (List.mem_cons_of_mem _ hu)
      exact ⟨cb :: cbs, .cons hcb hcbs, List.forall_mem_cons.mpr ⟨hacc, haccs⟩⟩

theorem queryFrom_le {q : Option Nat} {j : Nat} (hj : j < reads.flatten.length)
    (h : ∃ cb ∈ cbs, (Token.query q j).callback env (windows env reads) = .ok cb) :
    queryFrom env reads q j ≤ j := by
  obtain ⟨cb, -, hcb⟩ := h
  obtain ⟨text, htext, -⟩ := Token.callback_eq_ok hcb
  exact (text_eq_queryPart hj htext).1

/-- The texts of a request that several reads deliver are those that one read
delivers exactly when no read starts inside them. -/
theorem texts_same_iff {dbs : List Callback}
    (h : Calls env (windows env reads) (requestTokens env reads.flatten) cbs)
    (h' : Calls env (windows env [reads.flatten]) (requestTokens env reads.flatten) dbs)
    (r : HttpRequestParser) :
    ((runCallbacks cbs r).data.path = (runCallbacks dbs r).data.path ↔
      ∀ i j, lastSpan Token.pathSpan (requestTokens env reads.flatten) = some (i, j) →
        (windows env reads j).start ≤ i) ∧
    ((runCallbacks cbs r).data.query = (runCallbacks dbs r).data.query ↔
      ∀ q j, lastSpan Token.querySpan (requestTokens env reads.flatten) = some (q, j) →
        (windows env reads j).start ≤ q.getD 0) ∧
    ((runCallbacks cbs r).data.fragment = (runCallbacks dbs r).data.fragment ↔
      ∀ i j, lastSpan Token.fragmentSpan (requestTokens env reads.flatten) = some (i, j) →
        (windows env reads j).start ≤ i) := by
  have hflat : [reads.flatten].flatten = reads.flatten := by simp
  obtain ⟨hpath, hquery, hfragment⟩ := texts_eq h r
  have hcalls : Calls env (windows env [reads.flatten])
      (requestTokens env [reads.flatten].flatten) dbs := by
    rw [hflat]
    exact h'
  obtain ⟨hpath', hquery', hfragment'⟩ := texts_eq hcalls r
  rw [hflat] at hpath' hquery' hfragment'
  rw [hpath, hpath', hquery, hquery', hfragment, hfragment', elim_eq_iff, elim_eq_iff, elim_eq_iff]
  simp only [Prod.forall]
  refine ⟨?_, ?_, ?_⟩
  · refine forall_congr' fun i => forall_congr' fun j => imp_congr_right fun hlast => ?_
    obtain ⟨t, ht, hspan⟩ := exists_of_lastSpan hlast
    obtain ⟨hord, hstop⟩ := requestTokens_ordered ht
    cases t <;> cases hspan
    exact part_same_iff hstop hord
  · refine forall_congr' fun q => forall_congr' fun j => imp_congr_right fun hlast => ?_
    obtain ⟨t, ht, hspan⟩ := exists_of_lastSpan hlast
    obtain ⟨hord, hstop⟩ := requestTokens_ordered ht
    cases t <;> cases hspan
    have hk := queryFrom_le hstop (h.exists_callback ht)
    have hstop' : j < [reads.flatten].flatten.length := by rw [hflat]; exact hstop
    have hl := queryFrom_le hstop' (h'.exists_callback ht)
    exact queryPart_same_iff hstop hord hk hl
  · refine forall_congr' fun i => forall_congr' fun j => imp_congr_right fun hlast => ?_
    obtain ⟨t, ht, hspan⟩ := exists_of_lastSpan hlast
    obtain ⟨hord, hstop⟩ := requestTokens_ordered ht
    cases t <;> cases hspan
    exact part_same_iff hstop hord

end Fields

theorem complete_data {env : RequestEnv} {parser : HttpRequestParser} {rest : Text}
    {result : HttpRequest} (h : complete env parser rest = some result) :
    parser.data = { result with body := parser.data.body } := by
  rw [complete] at h
  split at h
  · split at h
    · cases h
      rfl
    · cases h
  · cases h
    rfl

/-- The body depends on the request the callbacks have made, not on the C structure. -/
theorem complete_congr {env : RequestEnv} {p q : HttpRequestParser} {rest : Text}
    (h : p.data = q.data) : complete env p rest = complete env q rest := by
  have hlen : HttpSession.contentLength env p = HttpSession.contentLength env q := by
    rw [HttpSession.contentLength, HttpSession.contentLength, HttpRequestParser.getContentLength,
      HttpRequestParser.getContentLength, h]
  rw [complete, complete, hlen, h]

/-- A buffer of 64 zero bytes and requests without a body. -/
def plainEnv : RequestEnv := ⟨List.replicate 64 0, false, 0, fun _ => none⟩

theorem received_whole : received plainEnv [ascii "GET /ab HTTP/1.1\r\n\r\n"] =
    .ok (some { HttpRequest.new with path := ascii "/ab" }) := by
  decide +kernel

end Sylar.Http
