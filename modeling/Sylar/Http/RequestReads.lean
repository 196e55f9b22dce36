import Mathlib.Data.List.Forall2
import Sylar.Http.Session

/-!
# A request seen through its reads

The machine runs the same actions on the same bytes however the bytes arrive.
What a callback is handed depends on the reads: an offset that an earlier call
recorded has become 0, the length of a field name has become the length of the
read, and `query_start` still counts from the start of the earlier read.

A token is what an action takes out of the input, as positions in the whole
input. A window is one read: where it starts, how long it is, and the whole
buffer while it is parsed.
-/

namespace Sylar.Http

open Sylar.Lib Sylar.Lib.Ragel Sylar.Net

/-- The positions that the actions have recorded. -/
structure Marks where
  mark : Nat
  fieldStart : Nat
  field : Option (Nat × Nat)
  query : Option Nat

def Marks.init : Marks := ⟨0, 0, none, none⟩

def Marks.after (m : Marks) (a : RequestAction) (j : Nat) : Marks :=
  match a with
  | .mark | .startValue => { m with mark := j }
  | .startField => { m with fieldStart := j }
  | .writeField => { m with field := some (m.fieldStart, j) }
  | .startQuery => { m with query := some j }
  | _ => m

/-- What an action takes out of the input, with the byte at which it does so. -/
inductive Token where
  | method (start stop : Nat)
  | path (start stop : Nat)
  | query (start : Option Nat) (stop : Nat)
  | fragment (start stop : Nat)
  | version (start stop : Nat)
  | field (nameStart : Nat) (name : Option (Nat × Nat)) (start stop : Nat)
  deriving DecidableEq, Repr

def Token.of (m : Marks) (a : RequestAction) (j : Nat) : Option Token :=
  match a with
  | .requestMethod => some (.method m.mark j)
  | .requestPath => some (.path m.mark j)
  | .queryString => some (.query m.query j)
  | .fragment => some (.fragment m.mark j)
  | .httpVersion => some (.version m.mark j)
  | .writeValue => some (.field m.fieldStart m.field m.mark j)
  | _ => none

/-- The tokens of a run. -/
def tokens : Marks → List (Nat × RequestAction) → List Token
  | _, [] => []
  | m, (j, a) :: es => (Token.of m a j).toList ++ tokens (m.after a j) es

/-- One read: where it starts in the input, its length, and the buffer with it in front. -/
structure Window where
  start : Nat
  length : Nat
  buffer : Text

/-- The read that delivers the byte at a position, for reads that start at
position `c` with the given content of the buffer. -/
def window (buffer : Text) (c : Nat) : List Text → Nat → Window
  | [], _ => ⟨c, 0, buffer⟩
  | r :: rs, j =>
      if j < c + r.length then ⟨c, r.length, Blocks.overwrite buffer 0 r⟩
      else window (Blocks.overwrite buffer 0 r) (c + r.length) rs j

/-- The offset that stands for a recorded position while the window is parsed. -/
def Window.offset (w : Window) (i : Nat) : Nat := max i w.start - w.start

/-- The length of the field name while the window is parsed. -/
def Window.nameLength (w : Window) : Option (Nat × Nat) → Nat
  | some (i, j) => if w.start ≤ j then j - max i w.start else w.length
  | none => w.length

/-- A call of one of the callbacks. -/
inductive Callback where
  | method (memory : Text)
  | path (text : Text)
  | query (text : Text)
  | fragment (text : Text)
  | version (text : Text)
  | field (key value : Text)
  | emptyField
  deriving DecidableEq, Repr

namespace Callback

def run : Callback → HttpRequestParser → HttpRequestParser
  | .method memory, r => r.onRequestMethod memory
  | .path text, r => r.onRequestPath text
  | .query text, r => r.onRequestQuery text
  | .fragment text, r => r.onRequestFragment text
  | .version text, r => r.onRequestVersion text
  | .field key value, r => r.onRequestHttpField key value
  | .emptyField, r => { r with error := 1002 }

/-- The callback does not set the error of the parser. -/
def Accepted : Callback → Prop
  | .method memory => charsToHttpMethod memory ≠ none
  | .version text => HttpRequestParser.versionOf text ≠ none
  | .emptyField => False
  | _ => True

end Callback

/-- The window function of a list of reads. -/
abbrev Windows := Nat → Window

/-- The value of `query_start` for a position recorded in its own window. -/
def queryOffset (env : RequestEnv) (W : Windows) : Option Nat → Nat
  | none => env.queryStart
  | some q => q - (W q).start

/-- The callback that a token leads to. -/
def Token.callback (env : RequestEnv) (W : Windows) : Token → Except Fault Callback
  | .method i j => .ok (.method ((W j).buffer.drop ((W j).offset i)))
  | .path i j => .path <$> text (W j) i j
  | .query q j =>
      .query <$> textAt (W j).buffer (queryOffset env W q)
        (((j - (W j).start : Nat) : Int) - queryOffset env W q)
  | .fragment i j => .fragment <$> text (W j) i j
  | .version i j => .version <$> text (W j) i j
  | .field n name i j =>
      if (W j).nameLength name = 0 then .ok .emptyField
      else do
        let key ← textAt (W j).buffer ((W j).offset n) ((W j).nameLength name)
        let value ← text (W j) i j
        .ok (.field key value)
where
  text (w : Window) (i j : Nat) : Except Fault Text :=
    textAt w.buffer (w.offset i) (((j - w.start : Nat) : Int) - w.offset i)

/-- The callback of a token has the token's kind. -/
theorem Token.callback_eq_ok {env : RequestEnv} {W : Windows} {t : Token} {cb : Callback}
    (h : t.callback env W = .ok cb) :
    match t with
    | .method _ _ => ∃ memory, cb = .method memory
    | .path i j => ∃ text, callback.text (W j) i j = .ok text ∧ cb = .path text
    | .query q j => ∃ text, textAt (W j).buffer (queryOffset env W q)
        (((j - (W j).start : Nat) : Int) - queryOffset env W q) = .ok text ∧ cb = .query text
    | .fragment i j => ∃ text, callback.text (W j) i j = .ok text ∧ cb = .fragment text
    | .version _ _ => ∃ text, cb = .version text
    | .field _ _ _ _ => cb = .emptyField ∨ ∃ key value, cb = .field key value := by
  have hmap : ∀ {f : Text → Callback} {x : Except Fault Text}, f <$> x = .ok cb →
      ∃ text, x = .ok text ∧ cb = f text := by
    intro f x hx
    cases x with
    | error e => cases hx
    | ok text =>
        cases hx
        exact ⟨text, rfl, rfl⟩
  cases t with
  | method i j =>
      cases h
      exact ⟨_, rfl⟩
  | path i j | fragment i j => exact hmap h
  | query q j => exact hmap h
  | version i j =>
      obtain ⟨text, -, hcb⟩ := hmap h
      exact ⟨text, hcb⟩
  | field n name i j =>
      rw [Token.callback] at h
      split at h
      · cases h
        exact Or.inl rfl
      · cases hkey : textAt (W j).buffer ((W j).offset n) ((W j).nameLength name) with
        | error e =>
            rw [hkey] at h
            cases h
        | ok key =>
            rw [hkey] at h
            obtain ⟨value, -, hcb⟩ := hmap (f := Callback.field key) h
            exact Or.inr ⟨key, value, hcb⟩

/-- The offsets of the parser while a window is parsed. -/
structure Views (env : RequestEnv) (W : Windows) (w : Window) (m : Marks) (c : HttpParser) :
    Prop where
  mark : c.mark = w.offset m.mark
  fieldStart : c.fieldStart = w.offset m.fieldStart
  fieldLen : c.fieldLen = w.nameLength m.field
  queryStart : c.queryStart = queryOffset env W m.query

/-- What an action does to the C structure. -/
def HttpParser.after (a : RequestAction) (p : Nat) (c : HttpParser) : HttpParser :=
  match a with
  | .mark | .startValue => { c with mark := p }
  | .startField => { c with fieldStart := p }
  | .writeField => { c with fieldLen := p - c.fieldStart }
  | .startQuery => { c with queryStart := p }
  | .done =>
      if c.xmlSent || c.jsonSent then
        { c with bodyStart := c.mark, contentLen := (p : Int) - c.mark + 1 }
      else { c with bodyStart := p + 1 }
  | .xml => { c with xmlSent := true }
  | .json => { c with jsonSent := true }
  | _ => c

@[simp] theorem HttpParser.after_cs (a : RequestAction) (p : Nat) (c : HttpParser) :
    (c.after a p).cs = c.cs := by
  cases a <;> simp only [HttpParser.after]
  split <;> rfl

theorem Callback.run_setParser (cb : Callback) (f : HttpParser → HttpParser)
    (r : HttpRequestParser) : cb.run (r.setParser f) = (cb.run r).setParser f := by
  cases cb with
  | method memory =>
      simp only [Callback.run, HttpRequestParser.onRequestMethod]
      cases charsToHttpMethod memory <;> rfl
  | version text =>
      simp only [Callback.run, HttpRequestParser.onRequestVersion]
      cases HttpRequestParser.versionOf text <;> rfl
  | path text | query text | fragment text | field key value | emptyField => rfl

theorem Callback.parser_run (cb : Callback) (r : HttpRequestParser) :
    (cb.run r).parser = r.parser := by
  cases cb with
  | method memory =>
      simp only [Callback.run, HttpRequestParser.onRequestMethod]
      cases charsToHttpMethod memory <;> rfl
  | version text =>
      simp only [Callback.run, HttpRequestParser.onRequestVersion]
      cases HttpRequestParser.versionOf text <;> rfl
  | path text | query text | fragment text | field key value | emptyField => rfl

section Events

variable {env : RequestEnv} {W : Windows} {w : Window}

/-- Call the callback of the token of an action. -/
def emit (env : RequestEnv) (W : Windows) (m : Marks) (a : RequestAction) (j : Nat)
    (r : HttpRequestParser) : Except Fault HttpRequestParser :=
  match Token.of m a j with
  | none => .ok r
  | some t => (t.callback env W).map fun cb => cb.run r

/-- The effect of an action: the callback of its token, then the C structure. -/
theorem action_eq {m : Marks} {r : HttpRequestParser} {p : Nat} (hW : W (w.start + p) = w)
    (hv : Views env W w m r.parser) (a : RequestAction) :
    HttpRequestParser.action w.buffer a p r =
      (emit env W m a (w.start + p) r).map fun r => r.setParser (HttpParser.after a p) := by
  have hp : w.start + p - w.start = p := Nat.add_sub_cancel_left _ _
  cases a with
  | mark | startField | writeField | startValue | requestUri | startQuery | xml | json => rfl
  | done =>
      simp only [HttpRequestParser.action, emit, Token.of, Except.map,
        HttpRequestParser.setParser, HttpParser.after]
      split <;> rfl
  | requestMethod =>
      simp only [HttpRequestParser.action, emit, Token.of, Token.callback, hW, hv.mark]
      rfl
  | requestPath | fragment | httpVersion =>
      simp only [HttpRequestParser.action, emit, Token.of, Token.callback, Token.callback.text, hW,
        hv.mark, hp]
      cases textAt w.buffer (w.offset m.mark) ((p : Int) - w.offset m.mark) <;> rfl
  | queryString =>
      simp only [HttpRequestParser.action, emit, Token.of, Token.callback, hW, hv.queryStart, hp]
      cases textAt w.buffer (queryOffset env W m.query)
        ((p : Int) - queryOffset env W m.query) <;> rfl
  | writeValue =>
      simp only [HttpRequestParser.action, emit, Token.of, Token.callback, Token.callback.text, hW,
        hv.mark, hv.fieldStart, hv.fieldLen, hp]
      split
      · rfl
      · cases textAt w.buffer (w.offset m.fieldStart) (w.nameLength m.field) with
        | error f => rfl
        | ok key =>
            cases textAt w.buffer (w.offset m.mark) ((p : Int) - w.offset m.mark) <;> rfl

theorem Views.after {m : Marks} {c : HttpParser} {p : Nat} (hW : W (w.start + p) = w)
    (hv : Views env W w m c) (a : RequestAction) :
    Views env W w (m.after a (w.start + p)) (c.after a p) := by
  have hoffset : w.offset (w.start + p) = p := by
    rw [Window.offset]
    omega
  obtain ⟨hmark, hstart, hlen, hquery⟩ := hv
  cases a with
  | mark | startValue => exact ⟨hoffset.symm, hstart, hlen, hquery⟩
  | startField => exact ⟨hmark, hoffset.symm, hlen, hquery⟩
  | writeField =>
      refine ⟨hmark, hstart, ?_, hquery⟩
      simp only [HttpParser.after, Marks.after, Window.nameLength, hstart, Window.offset]
      rw [if_pos (Nat.le_add_right _ _)]
      omega
  | startQuery =>
      refine ⟨hmark, hstart, hlen, ?_⟩
      simp only [HttpParser.after, Marks.after, queryOffset, hW]
      omega
  | done =>
      simp only [HttpParser.after, Marks.after]
      split
      · exact ⟨hmark, hstart, hlen, hquery⟩
      · exact ⟨hmark, hstart, hlen, hquery⟩
  | requestMethod | requestPath | requestUri | fragment | httpVersion | queryString | writeValue
  | xml | json => exact ⟨hmark, hstart, hlen, hquery⟩

/-- The marks after some events. -/
def Marks.afterAll (m : Marks) (es : List (Nat × RequestAction)) : Marks :=
  es.foldl (fun m e => m.after e.2 e.1) m

/-- The tokens of a run lead to these callbacks. -/
def Calls (env : RequestEnv) (W : Windows) (ts : List Token) (cbs : List Callback) : Prop :=
  List.Forall₂ (fun t cb => t.callback env W = .ok cb) ts cbs

theorem calls_append_iff {env : RequestEnv} {W : Windows} {ts us : List Token}
    {cbs : List Callback} :
    Calls env W (ts ++ us) cbs ↔
      ∃ as bs, cbs = as ++ bs ∧ Calls env W ts as ∧ Calls env W us bs := by
  constructor
  · intro h
    have htake := List.forall₂_take ts.length h
    have hdrop := List.forall₂_drop ts.length h
    rw [List.take_left] at htake
    rw [List.drop_left] at hdrop
    exact ⟨_, _, (List.take_append_drop ts.length cbs).symm, htake, hdrop⟩
  · rintro ⟨as, bs, rfl, has, hbs⟩
    exact List.rel_append has hbs

theorem Calls.unique {env : RequestEnv} {W : Windows} {ts : List Token} {cbs dbs : List Callback}
    (h : Calls env W ts cbs) (h' : Calls env W ts dbs) : cbs = dbs := by
  induction h generalizing dbs with
  | nil =>
      cases h'
      rfl
  | cons hhead _ ih =>
      cases h' with
      | cons hhead' htail' =>
          rw [hhead] at hhead'
          cases hhead'
          rw [ih htail']

/-- The callbacks one after the other. -/
def runCallbacks (cbs : List Callback) (r : HttpRequestParser) : HttpRequestParser :=
  cbs.foldl (fun r cb => cb.run r) r

theorem runCallbacks_append (cbs dbs : List Callback) (r : HttpRequestParser) :
    runCallbacks (cbs ++ dbs) r = runCallbacks dbs (runCallbacks cbs r) :=
  List.foldl_append

theorem runCallbacks_setParser (cbs : List Callback) (f : HttpParser → HttpParser)
    (r : HttpRequestParser) :
    runCallbacks cbs (r.setParser f) = (runCallbacks cbs r).setParser f := by
  induction cbs generalizing r with
  | nil => rfl
  | cons cb cbs ih => 
      simp only [runCallbacks, List.foldl_cons] at ih ⊢
      rw [cb.run_setParser, ih]

/-- Running the events of a window is calling the callbacks of its tokens. -/
theorem runEvents_ok_iff {m : Marks} {r r' : HttpRequestParser} (es : List (Nat × RequestAction))
    (hes : ∀ e ∈ es, W (w.start + e.1) = w) (hv : Views env W w m r.parser) :
    runEvents (HttpRequestParser.action w.buffer) es r = .ok r' ↔
      ∃ cbs, Calls env W (tokens m (es.map fun e => (w.start + e.1, e.2))) cbs ∧
        r' = (runCallbacks cbs r).setParser fun c =>
          es.foldl (fun c e => c.after e.2 e.1) c := by
  induction es generalizing m r with
  | nil =>
      constructor
      · intro h
        cases h
        exact ⟨[], .nil, rfl⟩
      · rintro ⟨cbs, hcalls, rfl⟩
        cases hcalls
        rfl
  | cons e es ih =>
      obtain ⟨p, a⟩ := e
      have hW := hes (p, a) List.mem_cons_self
      have hrest : ∀ e ∈ es, W (w.start + e.1) = w :=
        fun e he => hes e (List.mem_cons_of_mem _ he)
      -- The rest of the events, from the parser that a callback has left.
      have htail : ∀ q : HttpRequestParser, q.parser = r.parser →
          (runEvents (HttpRequestParser.action w.buffer) es (q.setParser (HttpParser.after a p)) =
            .ok r' ↔
          ∃ cbs, Calls env W (tokens (m.after a (w.start + p))
              (es.map fun e => (w.start + e.1, e.2))) cbs ∧
            r' = (runCallbacks cbs q).setParser fun c =>
              ((p, a) :: es).foldl (fun c e => c.after e.2 e.1) c) := by
        intro q hq
        have hview : Views env W w (m.after a (w.start + p))
            (q.setParser (HttpParser.after a p)).parser := by
          simp only [HttpRequestParser.setParser, hq]
          exact hv.after hW a
        rw [ih hrest hview]
        simp only [runCallbacks_setParser]
        rfl
      rw [runEvents, action_eq hW hv, List.map_cons, tokens, emit]
      cases ht : Token.of m a (w.start + p) with
      | none => exact htail r rfl
      | some t =>
          simp only [Option.toList_some, List.singleton_append]
          cases hcb : t.callback env W with
          | error f =>
              refine iff_of_false (by rintro ⟨⟩) ?_
              rintro ⟨cbs, hcalls, -⟩
              cases hcalls with
              | cons hhead _ => rw [hcb] at hhead; cases hhead
          | ok cb =>
              refine (htail (cb.run r) (cb.parser_run r)).trans ?_
              constructor
              · rintro ⟨cbs, hcalls, hr'⟩
                exact ⟨cb :: cbs, .cons hcb hcalls, hr'⟩
              · rintro ⟨cbs, hcalls, hr'⟩
                cases hcalls with
                | cons hhead htl =>
                    rw [hcb] at hhead
                    cases hhead
                    exact ⟨_, htl, hr'⟩

end Events

section Reads

variable {env : RequestEnv} {W : Windows} {w : Window} {m : Marks} {r : HttpRequestParser}
  {s : State RequestAction}

/-- All recorded positions are at most `c`, and a field name ended before it. -/
structure Marks.Below (m : Marks) (c : Nat) : Prop where
  mark_le : m.mark ≤ c
  fieldStart_le : m.fieldStart ≤ c
  field_lt : ∀ i j, m.field = some (i, j) → j < c

theorem Marks.Below.mono {c d : Nat} (h : m.Below c) (hcd : c ≤ d) : m.Below d :=
  ⟨h.mark_le.trans hcd, h.fieldStart_le.trans hcd,
    fun i j hij => Nat.lt_of_lt_of_le (h.field_lt i j hij) hcd⟩

theorem Marks.Below.after {c j : Nat} (h : m.Below c) (hj : j < c) (a : RequestAction) :
    (m.after a j).Below c := by
  obtain ⟨hmark, hstart, hfield⟩ := h
  cases a with
  | mark | startValue => exact ⟨hj.le, hstart, hfield⟩
  | startField => exact ⟨hmark, hj.le, hfield⟩
  | writeField =>
      refine ⟨hmark, hstart, ?_⟩
      intro i k hik
      cases hik
      exact hj
  | startQuery | requestMethod | requestPath | requestUri | fragment | httpVersion | queryString
  | writeValue | done | xml | json => exact ⟨hmark, hstart, hfield⟩

theorem Marks.Below.afterAll {c : Nat} (es : List (Nat × RequestAction)) (h : m.Below c)
    (hes : ∀ e ∈ es, e.1 < c) : (m.afterAll es).Below c := by
  induction es generalizing m with
  | nil => exact h
  | cons e es ih =>
      exact ih (h.after (hes e List.mem_cons_self) e.2)
        fun e he => hes e (List.mem_cons_of_mem _ he)

/-- The parser between two reads, before the byte at position `c`. -/
structure Ready (env : RequestEnv) (W : Windows) (c : Nat) (m : Marks) (r : HttpRequestParser)
    (s : State RequestAction) : Prop where
  cs : r.parser.cs = some s
  closes : ∀ e ∈ s, e.Closes .done
  notFinal : final s = false
  below : m.Below c
  queryStart : r.parser.queryStart = queryOffset env W m.query

theorem Ready.views (h : Ready env W w.start m r s) :
    Views env W w m (r.parser.reset w.length) := by
  refine ⟨?_, ?_, ?_, h.queryStart⟩
  · rw [Window.offset, Nat.max_eq_right h.below.mark_le, Nat.sub_self]
    rfl
  · rw [Window.offset, Nat.max_eq_right h.below.fieldStart_le, Nat.sub_self]
    rfl
  · cases hf : m.field with
    | none => rfl
    | some f =>
        obtain ⟨i, j⟩ := f
        rw [Window.nameLength, if_neg (Nat.not_le.mpr (h.below.field_lt i j hf))]
        rfl

theorem Views.afterAll {c : HttpParser} (es : List (Nat × RequestAction))
    (hes : ∀ e ∈ es, W (w.start + e.1) = w) (hv : Views env W w m c) :
    Views env W w (m.afterAll (es.map fun e => (w.start + e.1, e.2)))
      (es.foldl (fun c e => c.after e.2 e.1) c) := by
  induction es generalizing m c with
  | nil => exact hv
  | cons e es ih =>
      exact ih (fun e he => hes e (List.mem_cons_of_mem _ he))
        (hv.after (hes e List.mem_cons_self) e.2)

/-- The C structure after the bytes of one read. -/
def HttpParser.afterRead (s : State RequestAction) (bs : Text) (c : HttpParser) : HttpParser :=
  let run := scan HttpRequestParser.stop s 0 bs
  let result := run.2.result 0 bs.length
  let c := run.1.foldl (fun c e => c.after e.2 e.1) (c.reset bs.length)
  { c with cs := result.1, nread := c.nread + result.2 }

/-- One call of `execute` on a window with the bytes `bs`. -/
theorem execute_ok_iff {n : Nat} {data bs : Text} {r' : HttpRequestParser}
    (h : Ready env W w.start m r s) (hpos : 0 < bs.length) (hlen : w.length = bs.length)
    (hbs : w.buffer.take bs.length = bs) (hW : ∀ p < bs.length, W (w.start + p) = w) :
    r.execute w.buffer bs.length = .ok (n, data, r') ↔
      ∃ cbs, Calls env W (tokens m (scan HttpRequestParser.stop s w.start bs).1) cbs ∧
        n = ((scan HttpRequestParser.stop s 0 bs).2.result 0 bs.length).2 ∧
        data = bs.drop n ++ w.buffer.drop (bs.drop n).length ∧
        r' = (runCallbacks cbs r).setParser (HttpParser.afterRead s bs) := by
  have hcs : (r.setParser (HttpParser.reset bs.length)).parser.cs = some s := h.cs
  have hes : ∀ e ∈ (scan HttpRequestParser.stop s 0 bs).1, W (w.start + e.1) = w := by
    intro e he
    have hlt := (scan_position _ he).2
    exact hW e.1 (by omega)
  have hview : Views env W w m (r.setParser (HttpParser.reset bs.length)).parser := by
    rw [← hlen]
    exact h.views
  have hshift := scan_shift HttpRequestParser.stop s w.start 0 bs
  rw [Nat.add_zero] at hshift
  rw [HttpRequestParser.execute, HttpRequestParser.httpParserExecute,
    if_neg (Nat.pos_iff_ne_zero.mp hpos)]
  simp only [hcs, hbs, exec_eq]
  rw [hshift]
  constructor
  · intro hexec
    cases hrun : runEvents (HttpRequestParser.action w.buffer)
        (scan HttpRequestParser.stop s 0 bs).1 (r.setParser (HttpParser.reset bs.length)) with
    | error f =>
        rw [hrun] at hexec
        cases hexec
    | ok q =>
        obtain ⟨cbs, hcalls, rfl⟩ := (runEvents_ok_iff _ hes hview).mp hrun
        rw [hrun] at hexec
        cases hexec
        refine ⟨cbs, hcalls, rfl, rfl, ?_⟩
        rw [runCallbacks_setParser]
        rfl
  · rintro ⟨cbs, hcalls, rfl, rfl, rfl⟩
    rw [(runEvents_ok_iff _ hes hview).mpr ⟨cbs, hcalls, rfl⟩, runCallbacks_setParser]
    rfl

theorem parser_runCallbacks (cbs : List Callback) (r : HttpRequestParser) :
    (runCallbacks cbs r).parser = r.parser := by
  induction cbs generalizing r with
  | nil => rfl
  | cons cb cbs ih => exact (ih (cb.run r)).trans (cb.parser_run r)

theorem Callback.run_error {r : HttpRequestParser} (cb : Callback) (h : r.error ≠ 0) :
    (cb.run r).error ≠ 0 := by
  cases cb with
  | method memory =>
      simp only [Callback.run, HttpRequestParser.onRequestMethod]
      split
      · exact (by decide : (1000 : Nat) ≠ 0)
      · exact h
  | version text =>
      simp only [Callback.run, HttpRequestParser.onRequestVersion]
      split
      · exact (by decide : (1001 : Nat) ≠ 0)
      · exact h
  | emptyField => exact (by decide : (1002 : Nat) ≠ 0)
  | path text | query text | fragment text | field key value => exact h

theorem runCallbacks_error {r : HttpRequestParser} (cbs : List Callback) (h : r.error ≠ 0) :
    (runCallbacks cbs r).error ≠ 0 := by
  induction cbs generalizing r with
  | nil => exact h
  | cons cb cbs ih => exact ih (cb.run_error h)

/-- A read that the machine survives leaves the parser ready for the next one. -/
theorem Ready.next {bs : Text} {s' : State RequestAction} (h : Ready env W w.start m r s)
    (hlen : w.length = bs.length) (hW : ∀ p < bs.length, W (w.start + p) = w)
    (hrun : (scan HttpRequestParser.stop s w.start bs).2 = .running s') (cbs : List Callback) :
    Ready env W (w.start + bs.length)
      (m.afterAll (scan HttpRequestParser.stop s w.start bs).1)
      ((runCallbacks cbs r).setParser (HttpParser.afterRead s bs)) s' := by
  have hshift := scan_shift HttpRequestParser.stop s w.start 0 bs
  rw [Nat.add_zero] at hshift
  have hstop : ∀ b, HttpRequestParser.stop b = true ↔ b = .done := fun b => decide_eq_true_iff
  have hcloses := scan_closes HttpRequestParser.stop hstop w.start bs h.closes h.notFinal
  rw [hrun] at hcloses
  have hes : ∀ e ∈ (scan HttpRequestParser.stop s 0 bs).1, W (w.start + e.1) = w := by
    intro e he
    have hlt := (scan_position _ he).2
    exact hW e.1 (by omega)
  have hviews := Views.afterAll _ hes h.views
  have hparser : ((runCallbacks cbs r).setParser (HttpParser.afterRead s bs)).parser =
      HttpParser.afterRead s bs r.parser :=
    congrArg (HttpParser.afterRead s bs) (parser_runCallbacks cbs r)
  refine ⟨?_, hcloses.1, hcloses.2, ?_, ?_⟩
  · rw [hparser, HttpParser.afterRead]
    rw [hshift] at hrun
    cases ho : (scan HttpRequestParser.stop s 0 bs).2 with
    | running t =>
        rw [ho] at hrun
        cases hrun
        rfl
    | broke t q => rw [ho] at hrun; cases hrun
    | failed q => rw [ho] at hrun; cases hrun
  · refine (h.below.mono (Nat.le_add_right _ _)).afterAll _ ?_
    intro e he
    exact (scan_position _ he).2
  · rw [hparser, hshift]
    rw [hlen] at hviews
    exact hviews.queryStart

theorem tokens_append (m : Marks) (es fs : List (Nat × RequestAction)) :
    tokens m (es ++ fs) = tokens m es ++ tokens (m.afterAll es) fs := by
  induction es generalizing m with
  | nil => rfl
  | cons e es ih =>
      obtain ⟨j, a⟩ := e
      rw [List.cons_append, tokens, tokens, ih, List.append_assoc]
      rfl

end Reads

/-- The request with its body, when the head is followed by the given bytes. -/
def complete (env : RequestEnv) (parser : HttpRequestParser) (rest : Text) :
    Option HttpRequest :=
  let length := HttpSession.contentLength env parser
  if length > 0 then
    if length ≤ rest.length then some { parser.data with body := rest.take length.toNat }
    else none
  else some parser.data

/-- A request that announces no body, or a body that is there, is complete. -/
theorem complete_of_length_le {env : RequestEnv} {parser : HttpRequestParser} {rest : Text}
    (hbody : parser.data.body = [])
    (h : (HttpSession.contentLength env parser).toNat ≤ rest.length) :
    complete env parser rest = some
      { parser.data with body := rest.take (HttpSession.contentLength env parser).toNat } := by
  rw [complete]
  by_cases hpos : HttpSession.contentLength env parser > 0
  · simp only [hpos, if_true]
    rw [if_pos (by omega)]
  · have hzero : (HttpSession.contentLength env parser).toNat = 0 := by omega
    simp only [hpos, if_false, hzero, List.take_zero]
    rw [← hbody]

/-- The body of a request comes out of the buffer first and then off the socket,
which is closed where the body does not come. -/
theorem exec_recvBody (env : RequestEnv) (parser : HttpRequestParser) (unparsed more : Text)
    (pending : List Text) (hne : ∀ piece ∈ pending, piece ≠ []) :
    (HttpSession.recvBody env parser (unparsed ++ more) unparsed.length).exec ⟨pending, false⟩ =
      (.ok (complete env parser (unparsed ++ pending.flatten)),
        ⟨Pieces.skip ((HttpSession.contentLength env parser).toNat - unparsed.length) pending,
          (complete env parser (unparsed ++ pending.flatten)).isNone⟩) := by
  have hskip : Pieces.skip 0 pending = pending := Pieces.skip_zero hne
  rw [HttpSession.recvBody, complete]
  by_cases hpos : HttpSession.contentLength env parser > 0
  · simp only [hpos, if_true, List.length_append]
    obtain ⟨n, hn⟩ := Int.eq_ofNat_of_zero_le (Int.le_of_lt hpos)
    rw [hn]
    by_cases hmore : (n : Int) - unparsed.length > 0
    · have hge : (n : Int) ≥ unparsed.length := by omega
      have hleft : ((n : Int) - unparsed.length).toNat = n - unparsed.length := by omega
      have hread := Socket.exec_readFixSizeLoop (ε := Fault) (n - unparsed.length) _
        (Nat.le_refl _) pending hne
      rw [if_pos hge, if_pos hmore, hleft, Socket.readFixSize, Method.exec_bind_ok hread]
      by_cases henough : n ≤ unparsed.length + pending.flatten.length
      · have hsome : n - unparsed.length ≤ pending.flatten.length := by omega
        rw [if_pos hsome, if_pos (by omega)]
        rw [Int.toNat_natCast, List.take_left, List.take_append,
          List.take_of_length_le (by omega : unparsed.length ≤ n)]
        rfl
      · have hnone : ¬ n - unparsed.length ≤ pending.flatten.length := by omega
        rw [if_neg hnone, if_neg (by omega)]
        rfl
    · have hle : n ≤ unparsed.length := by omega
      have hcopied : (if (n : Int) ≥ unparsed.length then (unparsed ++ more).take unparsed.length
          else (unparsed ++ more).take (n : Int).toNat) = unparsed.take n := by
        split
        · rw [List.take_left, List.take_of_length_le (by omega)]
        · rw [Int.toNat_natCast, List.take_append_of_le_length hle]
      have hfit : (n : Int) ≤ ((unparsed.length + pending.flatten.length : Nat) : Int) := by omega
      rw [if_neg hmore, hcopied, if_pos hfit, Method.exec_pure, Int.toNat_natCast,
        List.take_append_of_le_length hle, Nat.sub_eq_zero_of_le hle, hskip]
      rfl
  · have hzero : (HttpSession.contentLength env parser).toNat = 0 := by omega
    simp only [hpos, if_false, hzero, Nat.zero_sub, hskip]
    rfl

/-- One round of the loop, when a read of `bs` fits into the empty buffer. -/
theorem exec_recvLoop (env : RequestEnv) (rounds : Nat) (r : HttpRequestParser) (buffer : Text)
    {bs : Text} (rs : List Text) (hne : bs ≠ []) (hfit : bs.length ≤ buffer.length) :
    (HttpSession.recvLoop env (rounds + 1) r buffer 0).exec ⟨bs :: rs, false⟩ =
      match r.execute (Blocks.overwrite buffer 0 bs) bs.length with
      | .error f => (.error f, ⟨rs, false⟩)
      | .ok (n, data, r') =>
          if r'.hasError ∨ bs.length - n = data.length then (.ok none, ⟨rs, true⟩)
          else if r'.isFinished then
            (HttpSession.recvBody env r' data (bs.length - n)).exec ⟨rs, false⟩
          else (HttpSession.recvLoop env rounds r' data (bs.length - n)).exec ⟨rs, false⟩ := by
  have hrecv : Socket.recv (buffer.length - 0) (bs :: rs) = (bs, rs) := by
    rw [Socket.recv, Nat.sub_zero, if_pos hfit]
  rw [HttpSession.recvLoop, Method.exec_bind_ok (Socket.exec_read _ _), hrecv, if_neg hne]
  simp only [Nat.add_zero]
  cases hexec : r.execute (Blocks.overwrite buffer 0 bs) bs.length with
  | error f => rfl
  | ok x =>
      obtain ⟨n, data, r'⟩ := x
      rw [Method.exec_bind_ok (Method.exec_lift _ _)]
      by_cases herr : r'.hasError
      · simp only [herr, if_true, true_or]
        rfl
      · by_cases hfull : bs.length - n = data.length
        · simp only [herr, hfull, if_true, if_false, Bool.false_eq_true, or_true]
          rfl
        · simp only [herr, hfull, if_false, Bool.false_eq_true, or_self]
          split <;> rfl

section Round

variable {env : RequestEnv} {W : Windows} {c : Nat} {m : Marks} {r : HttpRequestParser}
  {s : State RequestAction} {buffer bs : Text} {result : HttpRequest}

/-- The window of a read that starts at position `c`. -/
def readWindow (buffer : Text) (c : Nat) (bs : Text) : Window :=
  ⟨c, bs.length, Blocks.overwrite buffer 0 bs⟩

theorem scan_at (c : Nat) (s : State RequestAction) (bs : Text) :
    scan HttpRequestParser.stop s c bs =
      ((scan HttpRequestParser.stop s 0 bs).1.map fun e => (c + e.1, e.2),
        (scan HttpRequestParser.stop s 0 bs).2.shift c) := by
  have hshift := scan_shift HttpRequestParser.stop s c 0 bs
  rwa [Nat.add_zero] at hshift

/-- After a read that the machine survives, an error is one that a callback set. -/
theorem afterRead_hasError {o : Outcome RequestAction} {t : State RequestAction}
    (ho : (scan HttpRequestParser.stop s 0 bs).2 = o) (ht : (o.result 0 bs.length).1 = some t)
    (x : HttpRequestParser) :
    (x.setParser (HttpParser.afterRead s bs)).hasError = true ↔ x.error ≠ 0 := by
  have hcs : (x.setParser (HttpParser.afterRead s bs)).parser.cs = some t := by
    rw [← ht, ← ho]
    rfl
  rw [HttpRequestParser.hasError, HttpParser.hasError, hcs, Option.isNone_some, Bool.or_false,
    decide_eq_true_iff]
  rfl

/-- One round returns a request when its callbacks succeed and the rest does. -/
theorem round_ok_iff (rounds : Nat) (rs : List Text) (h : Ready env W c m r s) (hne : bs ≠ [])
    (hfit : bs.length ≤ buffer.length)
    (hW : ∀ p < bs.length, W (c + p) = readWindow buffer c bs) :
    let n := ((scan HttpRequestParser.stop s 0 bs).2.result 0 bs.length).2
    let data := bs.drop n ++ (readWindow buffer c bs).buffer.drop (bs.drop n).length
    ((HttpSession.recvLoop env (rounds + 1) r buffer 0).exec ⟨bs :: rs, false⟩).1 =
        .ok (some result) ↔
      ∃ cbs, Calls env W (tokens m (scan HttpRequestParser.stop s c bs).1) cbs ∧
        let r' := (runCallbacks cbs r).setParser (HttpParser.afterRead s bs)
        ¬ (r'.hasError ∨ bs.length - n = data.length) ∧
        (if r'.isFinished then
            (HttpSession.recvBody env r' data (bs.length - n)).exec ⟨rs, false⟩
          else (HttpSession.recvLoop env rounds r' data (bs.length - n)).exec ⟨rs, false⟩).1 =
          .ok (some result) := by
  intro n data
  have hpos : 0 < bs.length := List.length_pos_iff.mpr hne
  have hfront : (readWindow buffer c bs).buffer.take bs.length = bs := by
    simp [readWindow, Blocks.overwrite]
  have hexec := fun k (d : Text) r' =>
    @execute_ok_iff env W (readWindow buffer c bs) m r s k d bs r' h hpos rfl hfront hW
  rw [exec_recvLoop env rounds r buffer rs hne hfit]
  cases hx : r.execute (Blocks.overwrite buffer 0 bs) bs.length with
  | error f =>
      refine iff_of_false (by rintro ⟨⟩) ?_
      rintro ⟨cbs, hcalls, -⟩
      have hok := (hexec _ _ _).mpr ⟨cbs, hcalls, rfl, rfl, rfl⟩
      cases hx.symm.trans hok
  | ok x =>
      obtain ⟨k, d, r'⟩ := x
      obtain ⟨cbs, hcalls, rfl, rfl, rfl⟩ := (hexec k d r').mp hx
      constructor
      · intro hres
        refine ⟨cbs, hcalls, ?_⟩
        dsimp only at hres ⊢
        split at hres
        · cases hres
        · next hno => exact ⟨hno, hres⟩
      · rintro ⟨dbs, hdbs, hno, hres⟩
        obtain rfl := hcalls.unique hdbs
        dsimp only
        rw [if_neg hno]
        exact hres

end Round

/-- The loop returns a request exactly when the machine completes one on the
bytes that arrive, every token leads to a callback, no callback sets the error
and the body arrives. -/
theorem recvLoop_ok_iff {env : RequestEnv} {W : Windows} (rs : List Text) {c : Nat}
    {buffer : Text} {rounds : Nat} {m : Marks} {r : HttpRequestParser}
    {s : State RequestAction} {result : HttpRequest} (h : Ready env W c m r s)
    (hne : ∀ bs ∈ rs, bs ≠ []) (hfit : ∀ bs ∈ rs, bs.length ≤ buffer.length)
    (hrounds : rs.length < rounds) (hW : ∀ j, c ≤ j → W j = window buffer c rs j) :
    ((HttpSession.recvLoop env rounds r buffer 0).exec ⟨rs, false⟩).1 = .ok (some result) ↔
      ∃ s' stop cbs, (scan HttpRequestParser.stop s c rs.flatten).2 = .broke s' stop ∧
        Calls env W (tokens m (scan HttpRequestParser.stop s c rs.flatten).1) cbs ∧
        (runCallbacks cbs r).error = 0 ∧
        complete env (runCallbacks cbs r) (rs.flatten.drop (stop - c)) = some result := by
  induction rs generalizing c buffer rounds m r s with
  | nil =>
      obtain ⟨rounds, rfl⟩ : ∃ k, rounds = k + 1 := ⟨rounds - 1, by omega⟩
      refine iff_of_false ?_ ?_
      · intro hres
        cases hres
      · rintro ⟨s', stop, cbs, hout, -⟩
        cases hout
  | cons bs rs ih =>
      obtain ⟨rounds, rfl⟩ : ∃ k, rounds = k + 1 := ⟨rounds - 1, by omega⟩
      have hbs : bs ≠ [] := hne bs List.mem_cons_self
      have hlen : bs.length ≤ buffer.length := hfit bs List.mem_cons_self
      have hpos : 0 < bs.length := List.length_pos_iff.mpr hbs
      have hWhere : ∀ p < bs.length, W (c + p) = readWindow buffer c bs := by
        intro p hp
        rw [hW _ (Nat.le_add_right c p), window, if_pos (by omega)]
        rfl
      have hWthen : ∀ j, c + bs.length ≤ j →
          W j = window (readWindow buffer c bs).buffer (c + bs.length) rs j := by
        intro j hj
        rw [hW _ (by omega), window, if_neg (by omega)]
        rfl
      have hbuffer : (readWindow buffer c bs).buffer.length = buffer.length :=
        Blocks.length_overwrite (by rw [Nat.zero_add]; exact hlen)
      have hne' : ∀ bs ∈ rs, bs ≠ [] := fun b hb => hne b (List.mem_cons_of_mem _ hb)
      have hfit' : ∀ bs ∈ rs, bs.length ≤ buffer.length :=
        fun b hb => hfit b (List.mem_cons_of_mem _ hb)
      have hrounds' : rs.length < rounds := Nat.lt_of_succ_lt_succ hrounds
      refine (round_ok_iff rounds rs h hbs hlen hWhere).trans ?_
      have hhere := scan_at c s bs
      rw [List.flatten_cons, scan_append]
      cases ho : (scan HttpRequestParser.stop s 0 bs).2 with
      | failed q =>
          refine iff_of_false ?_ ?_
          · rintro ⟨cbs, -, hno, -⟩
            apply hno
            left
            simp [HttpRequestParser.hasError, HttpRequestParser.setParser, HttpParser.afterRead,
              HttpParser.hasError, ho, Outcome.result]
          · rintro ⟨s', stop, cbs, hout, -⟩
            rw [hhere, ho] at hout
            cases hout
      | broke s' q =>
          have hstop : ∀ b, HttpRequestParser.stop b = true ↔ b = .done :=
            fun b => decide_eq_true_iff
          have hfinal := scan_closes HttpRequestParser.stop hstop 0 bs h.closes h.notFinal
          have hq := scan_broke_position _ ho
          have hdrop : (bs.drop q).length = bs.length - q := List.length_drop
          have hbody : ∀ x : HttpRequestParser,
              ((HttpSession.recvBody env (x.setParser (HttpParser.afterRead s bs))
                (bs.drop q ++ (readWindow buffer c bs).buffer.drop (bs.drop q).length)
                (bs.length - q)).exec ⟨rs, false⟩).1 =
                .ok (complete env x ((bs ++ rs.flatten).drop q)) := by
            intro x
            rw [← hdrop, exec_recvBody _ _ _ _ _ hne', List.drop_append_of_le_length (by omega)]
            rfl
          rw [ho] at hfinal
          have hfinished : ∀ x : HttpRequestParser,
              (x.setParser (HttpParser.afterRead s bs)).isFinished = true := by
            intro x
            change ((scan HttpRequestParser.stop s 0 bs).2.result 0 bs.length).1.elim false final
              = true
            rw [ho]
            exact hfinal
          rw [hhere, ho]
          constructor
          · rintro ⟨cbs, hcalls, hno, hres⟩
            rw [if_pos (hfinished _)] at hres
            refine ⟨s', c + q, cbs, rfl, hcalls, ?_, ?_⟩
            · by_contra herr
              exact hno (Or.inl ((afterRead_hasError ho rfl _).mpr herr))
            · rw [Nat.add_sub_cancel_left]
              exact Except.ok.inj ((hbody _).symm.trans hres)
          · rintro ⟨t, stop, cbs, hout, hcalls, herr, hres⟩
            cases hout
            rw [Nat.add_sub_cancel_left] at hres
            refine ⟨cbs, hcalls, ?_, ?_⟩
            · rintro (hbad | hfull)
              · exact (afterRead_hasError ho rfl _).mp hbad herr
              · simp only [Outcome.result, List.length_append, List.length_drop, hbuffer] at hfull
                omega
            · rw [if_pos (hfinished _)]
              exact (hbody _).trans (congrArg _ hres)
      | running s' =>
          have hnext : ∀ cbs, Ready env W (c + bs.length)
              (m.afterAll (scan HttpRequestParser.stop s c bs).1)
              ((runCallbacks cbs r).setParser (HttpParser.afterRead s bs)) s' :=
            fun cbs => h.next (w := readWindow buffer c bs) rfl hWhere
              (by rw [readWindow, hhere, ho]; rfl) cbs
          have hloop := fun cbs =>
            ih (hnext cbs) hne' (by rw [hbuffer]; exact hfit') hrounds' hWthen
          have hrunning : ∀ x : HttpRequestParser,
              ¬ (x.setParser (HttpParser.afterRead s bs)).isFinished = true := by
            intro x
            change ¬ ((scan HttpRequestParser.stop s 0 bs).2.result 0 bs.length).1.elim false final
              = true
            rw [ho]
            exact Bool.eq_false_iff.mp (hnext []).notFinal
          have hdata : bs.drop bs.length ++
              (readWindow buffer c bs).buffer.drop (bs.drop bs.length).length =
                (readWindow buffer c bs).buffer := by
            rw [List.drop_length, List.nil_append, List.length_nil, List.drop_zero]
          have hempty : ¬ 0 = (readWindow buffer c bs).buffer.length := by
            rw [hbuffer]
            omega
          -- What is left of the input after the second part's run, seen from its start.
          have hdrop : ∀ stop, c + bs.length < stop →
              (bs ++ rs.flatten).drop (stop - c) = rs.flatten.drop (stop - (c + bs.length)) := by
            intro stop hstop
            rw [List.drop_append, List.drop_eq_nil_of_le (by omega), List.nil_append]
            congr 1
            omega
          rw [hhere, ho]
          simp only [Outcome.result, Outcome.shift, Nat.zero_add, hdata, Nat.sub_self,
            hrunning, tokens_append, calls_append_iff, hempty, or_false, if_false,
            Bool.false_eq_true]
          constructor
          · rintro ⟨cbs, hcalls, hno, hres⟩
            obtain ⟨t, stop, dbs, hout, hdbs, herr, hdone⟩ := (hloop cbs).mp hres
            rw [runCallbacks_setParser, ← runCallbacks_append] at herr hdone
            rw [hhere] at hdbs
            refine ⟨t, stop, cbs ++ dbs, hout, ⟨cbs, dbs, rfl, hcalls, hdbs⟩, herr, ?_⟩
            rw [hdrop stop (scan_broke_position _ hout).1]
            exact hdone
          · rintro ⟨t, stop, cbs, hout, ⟨as, ds, rfl, has, hds⟩, herr, hdone⟩
            rw [runCallbacks_append] at herr hdone
            refine ⟨as, has, ?_, ?_⟩
            · rw [afterRead_hasError ho rfl]
              intro hbad
              exact runCallbacks_error ds hbad herr
            · refine (hloop as).mpr ⟨t, stop, ds, hout, ?_, ?_, ?_⟩
              · rw [hhere]
                exact hds
              · rw [runCallbacks_setParser]
                exact herr
              · rw [runCallbacks_setParser, ← hdrop stop (scan_broke_position _ hout).1]
                exact hdone

end Sylar.Http
