import Sylar.Http.RequestWire
import Sylar.Http.UriText

/-!
# The request that a client builds

`HttpConnection::DoRequest` and `HttpConnectionPool::doRequest` build a request out of a
URI and the header fields of the caller. The pool puts the whole target into the path and
keeps its connections open; the text on the wire tells no other difference.
-/

namespace Sylar.Http

open Sylar.Lib Sylar.Lib.Ragel Sylar.Net RequestStates

/-- The body of the loop over the headers, on the request and `has_host`. -/
def HttpRequest.addHeader (x : HttpRequest × Bool) (i : Text × Text) : HttpRequest × Bool :=
  if sameIgnoringCase i.1 (ascii "connection") then
    (if sameIgnoringCase i.2 (ascii "keep-alive") then { x.1 with close := false } else x.1, x.2)
  else
    (x.1.setHeader i.1 i.2,
      if !x.2 && sameIgnoringCase i.1 (ascii "host") then i.2 ≠ [] else x.2)

/-- What both functions do with a new request; `host` is the host if the headers name none. -/
def HttpRequest.prepare (host : Text) (headers : List (Text × Text)) (body : Text)
    (r : HttpRequest) : HttpRequest :=
  let x := headers.foldl addHeader (r, false)
  let r := if x.2 then x.1 else x.1.setHeader (ascii "Host") host
  { r with body := body }

/-- The request that `HttpConnection::DoRequest(method, uri, …)` sends. -/
def HttpConnection.requestTo (method : HttpMethod) (uri : Uri) (headers : List (Text × Text))
    (body : Text) : HttpRequest :=
  HttpRequest.prepare uri.host headers body
    { HttpRequest.new with
      path := uri.getPath
      query := uri.query
      fragment := uri.fragment
      method := method }

/-- The request that `HttpConnectionPool::doRequest(method, url, …)` sends. -/
def HttpConnectionPool.requestTo (host vhost : Text) (method : HttpMethod) (url : Text)
    (headers : List (Text × Text)) (body : Text) : HttpRequest :=
  HttpRequest.prepare (if vhost = [] then host else vhost) headers body
    { HttpRequest.new with path := url, method := method, close := false }

/-- The target that `HttpConnectionPool::doGet` and `doPost` make of a URI. -/
def HttpConnectionPool.target (uri : Uri) : Text :=
  uri.getPath ++ (if uri.query = [] then [] else ascii "?") ++ uri.query ++
    (if uri.fragment = [] then [] else ascii "#") ++ uri.fragment

/-- A field asks to keep the connection. -/
def keepsAlive (headers : List (Text × Text)) : Bool :=
  headers.any fun i =>
    sameIgnoringCase i.1 (ascii "connection") && sameIgnoringCase i.2 (ascii "keep-alive")

/-- A field names a host. -/
def namesHost (headers : List (Text × Text)) : Bool :=
  headers.any fun i => sameIgnoringCase i.1 (ascii "host") && decide (i.2 ≠ [])

/-- The host that is added. -/
def hostField (host : Text) (headers : List (Text × Text)) : List (Text × Text) :=
  if namesHost headers then [] else [(ascii "Host", host)]

theorem connection_ne_host : sameIgnoringCase (ascii "connection") (ascii "host") = false ∧
    sameIgnoringCase (ascii "Host") (ascii "content-length") = false := by decide +kernel

section Prepare

open HttpRequest

theorem foldl_addHeader (headers : List (Text × Text)) (r : HttpRequest) (b : Bool) :
    headers.foldl addHeader (r, b) =
      ({ r with
          close := r.close && !keepsAlive headers
          headers := HeaderMap.setAll (ownFields headers) r.headers },
        b || namesHost headers) := by
  induction headers generalizing r b with
  | nil => simp [keepsAlive, namesHost, ownFields, HeaderMap.setAll]
  | cons i headers ih =>
      rw [List.foldl_cons, addHeader]
      by_cases hconnection : sameIgnoringCase i.1 (ascii "connection") = true
      · have hhost : sameIgnoringCase i.1 (ascii "host") = false := by
          rw [sameIgnoringCase_congr hconnection]
          exact connection_ne_host.1
        rw [if_pos hconnection, ih]
        by_cases hkeep : sameIgnoringCase i.2 (ascii "keep-alive") = true <;>
          simp [hconnection, hhost, hkeep, keepsAlive, namesHost, ownFields]
      · rw [if_neg hconnection, ih]
        cases b <;> by_cases hhost : sameIgnoringCase i.1 (ascii "host") = true <;>
          simp [hconnection, hhost, keepsAlive, namesHost, ownFields, HeaderMap.setAll, setHeader]

theorem prepare_eq (host : Text) (headers : List (Text × Text)) (body : Text) (r : HttpRequest) :
    r.prepare host headers body =
      { r with
        close := r.close && !keepsAlive headers
        headers := HeaderMap.setAll (ownFields headers ++ hostField host headers) r.headers
        body := body } := by
  have happend : HeaderMap.setAll (ownFields headers ++ hostField host headers) r.headers =
      HeaderMap.setAll (hostField host headers) (HeaderMap.setAll (ownFields headers) r.headers) :=
    List.foldl_append
  rw [prepare, foldl_addHeader, Bool.false_or, happend, hostField]
  cases namesHost headers with
  | true => rfl
  | false => rfl

end Prepare

namespace HeaderMap

/-- A property of names and one of values hold in a map after fields that have them were set. -/
theorem forall_mem_set {P Q : Text → Prop} {key val : Text} (hkey : P key) (hval : Q val)
    {m : HeaderMap} (h : ∀ i ∈ m, P i.1 ∧ Q i.2) : ∀ i ∈ set key val m, P i.1 ∧ Q i.2 := by
  induction m with
  | nil =>
      intro i hi
      rw [List.mem_singleton.mp hi]
      exact ⟨hkey, hval⟩
  | cons j m ih =>
      obtain ⟨hj, hm⟩ := List.forall_mem_cons.mp h
      rw [set]
      split
      · exact List.forall_mem_cons.mpr ⟨⟨hkey, hval⟩, h⟩
      · split
        · exact List.forall_mem_cons.mpr ⟨hj, ih hm⟩
        · exact List.forall_mem_cons.mpr ⟨⟨hj.1, hval⟩, hm⟩

theorem Sorted.set {m : HeaderMap} (h : m.Sorted) (key val : Text) :
    (HeaderMap.set key val m).Sorted := by
  have hless : ∀ {s t : Text}, caseInsensitiveLess s t = true ↔ caseKey s < caseKey t :=
    decide_eq_true_iff
  induction m with
  | nil => exact List.pairwise_singleton _ _
  | cons j m ih =>
      obtain ⟨hfirst, hrest⟩ := List.pairwise_cons.mp h
      rw [HeaderMap.set]
      split
      · next hkey =>
          refine List.pairwise_cons.mpr ⟨List.forall_mem_cons.mpr ⟨hkey, fun i hi => ?_⟩, h⟩
          exact hless.mpr (lt_trans (hless.mp hkey) (hless.mp (hfirst i hi)))
      · next hkey =>
          split
          · next hj =>
              refine List.pairwise_cons.mpr ⟨fun i hi => ?_, ih hrest⟩
              have hname := forall_mem_set (P := fun k => caseInsensitiveLess j.1 k = true)
                (Q := fun _ => True) hj trivial (fun i hi => ⟨hfirst i hi, trivial⟩) i hi
              exact hname.1
          · exact List.pairwise_cons.mpr ⟨hfirst, hrest⟩

theorem sorted_setAll (fields : List (Text × Text)) {m : HeaderMap} (h : m.Sorted) :
    (setAll fields m).Sorted := by
  induction fields generalizing m with
  | nil => exact h
  | cons i fields ih => exact ih (h.set i.1 i.2)

theorem plainField_setAll {fields : List (Text × Text)} {m : HeaderMap}
    (hfields : ∀ i ∈ fields, PlainField i) (hm : ∀ i ∈ m, PlainField i) :
    ∀ i ∈ setAll fields m, PlainField i := by
  induction fields generalizing m with
  | nil => exact hm
  | cons i fields ih =>
      obtain ⟨hi, hfields⟩ := List.forall_mem_cons.mp hfields
      refine ih hfields fun j hj => ?_
      obtain ⟨⟨hne, hname⟩, hvalue, hhead⟩ := forall_mem_set
        (P := fun k => k ≠ [] ∧ ∀ b ∈ k, nameBytes.mem b)
        (Q := fun v => (∀ b ∈ v, valueBytes.mem b) ∧ ∀ b ∈ v.head?, ByteSet.space.mem b = false)
        ⟨hi.name_ne, hi.name_mem⟩ ⟨hi.value_mem, hi.value_head⟩
        (fun j hj => ⟨⟨(hm j hj).name_ne, (hm j hj).name_mem⟩, (hm j hj).value_mem,
          (hm j hj).value_head⟩) j hj
      exact ⟨hne, hname, hvalue, hhead⟩

end HeaderMap

/-- A call whose request the grammar of the server can express: the length of the body is left
to `dump`. -/
structure PlainCall (relaxed : Bool) (method : HttpMethod) (uri : Uri)
    (headers : List (Text × Text)) : Prop where
  method : method ≠ .MSEARCH
  path : PlainPath relaxed uri.getPath
  query : escaped (queryBytes relaxed) uri.query
  fragment : escaped (queryBytes relaxed) uri.fragment
  fields : ∀ i ∈ headers, PlainField i
  host : PlainField (ascii "Host", uri.host)
  length : ∀ i ∈ headers, sameIgnoringCase i.1 (ascii "content-length") = false

section Arrives

variable {relaxed : Bool} {method : HttpMethod} {uri : Uri} {headers : List (Text × Text)}
  {body : Text}

theorem find_hostField (host key : Text) :
    HeaderMap.find key (hostField host headers).reverse =
      if namesHost headers = false ∧ sameIgnoringCase (ascii "Host") key then some host
      else none := by
  rw [hostField]
  cases namesHost headers with
  | true => rfl
  | false => simp [HeaderMap.find_cons, HeaderMap.find_nil]

/-- What a lookup finds among the headers of the request. -/
theorem find_requestTo (key : Text) :
    HeaderMap.find key (HttpConnection.requestTo method uri headers body).headers =
      if namesHost headers = false ∧ sameIgnoringCase (ascii "Host") key then some uri.host
      else HeaderMap.find key (ownFields headers).reverse := by
  rw [HttpConnection.requestTo, prepare_eq, HeaderMap.find_setAll, List.reverse_append,
    HeaderMap.find_append, find_hostField]
  split
  · rfl
  · exact Option.or_none

theorem PlainCall.sendable (h : PlainCall relaxed method uri headers) (body : Text) :
    (HttpConnection.requestTo method uri headers body).Sendable relaxed := by
  have hnone : HeaderMap.find (ascii "content-length") (ownFields headers).reverse = none := by
    refine HeaderMap.find_eq_none_of_forall fun i hi => ?_
    exact h.length i (List.mem_filter.mp (List.mem_reverse.mp hi)).1
  have hlength : HeaderMap.find (ascii "content-length")
      (HttpConnection.requestTo method uri headers body).headers = _ := find_requestTo _
  rw [connection_ne_host.2, hnone] at hlength
  rw [HttpConnection.requestTo, prepare_eq] at hlength ⊢
  refine ⟨h.method, .inr rfl, h.path, h.query, h.fragment, ?_, ?_, ?_⟩
  · refine HeaderMap.plainField_setAll (fun i hi => ?_) nofun
    obtain hi | hi := List.mem_append.mp hi
    · exact h.fields i (List.mem_filter.mp hi).1
    · rw [hostField] at hi
      split at hi
      · cases hi
      · rw [List.mem_singleton.mp hi]
        exact h.host
  · exact HeaderMap.sorted_setAll _ List.Pairwise.nil
  · simpa using hlength

end Arrives

/-- What `dump` writes of the request of the pool: that of `DoRequest` for the host of the pool,
with a connection that is kept. -/
theorem dump_pool (host vhost : Text) (uri : Uri) (method : HttpMethod)
    (headers : List (Text × Text)) (body : Text) :
    (HttpConnectionPool.requestTo host vhost method (HttpConnectionPool.target uri) headers
        body).dump =
      { HttpConnection.requestTo method
          { uri with host := if vhost = [] then host else vhost } headers body with
        close := false }.dump := by
  rw [HttpConnectionPool.requestTo, HttpConnection.requestTo, prepare_eq, prepare_eq]
  simp only [HttpRequest.dump, HttpRequest.startText, HttpConnectionPool.target, HttpRequest.new,
    Bool.false_and, if_true, List.append_nil, List.append_assoc, Uri.getPath]

/-- A pool and `DoRequest` for the host of the pool write the same bytes for the same URI,
headers and body exactly if the caller asks to keep the connection; otherwise only the line on
the connection differs. -/
theorem pool_sends_same_bytes_iff (host vhost : Text) (uri : Uri) (method : HttpMethod)
    (headers : List (Text × Text)) (body : Text) :
    let pooled := HttpConnectionPool.requestTo host vhost method
      (HttpConnectionPool.target uri) headers body
    let direct := HttpConnection.requestTo method
      { uri with host := if vhost = [] then host else vhost } headers body
    (pooled.dump = direct.dump ↔ keepsAlive headers = true) ∧
      ∃ front back, pooled.dump = front ++ ascii "Connection: keep-alive" ++ back ∧
        direct.dump = front ++ connectionText (!keepsAlive headers) ++ back := by
  intro pooled direct
  have hpooled : pooled.dump = { direct with close := false }.dump :=
    dump_pool host vhost uri method headers body
  have hclose : direct.close = !keepsAlive headers := by
    unfold direct
    rw [HttpConnection.requestTo, prepare_eq]
    rfl
  -- the two texts agree in front of the connection and behind it
  have hdump : ∀ c, { direct with close := c }.dump =
      direct.startText ++ crlf ++ connectionText c ++
        (crlf ++ dumpHeaders direct.headers ++ dumpBody direct.body) := by
    intro c
    simp only [HttpRequest.dump, HttpRequest.startText, List.append_assoc]
  have hdirect := hdump direct.close
  refine ⟨?_, _, _, hpooled.trans (hdump false), hdirect.trans (by rw [hclose])⟩
  rw [hpooled, hdump false]
  rw [hdirect, hclose]
  cases keepsAlive headers with
  | true => exact iff_of_true rfl rfl
  | false =>
      refine iff_of_false (fun heq => ?_) Bool.false_ne_true
      rw [List.append_assoc, List.append_assoc (direct.startText ++ crlf)] at heq
      have htail := List.append_cancel_left heq
      rw [Bool.not_false, connectionText, connectionText, List.append_assoc,
        List.append_assoc] at htail
      have hword := List.append_cancel_left htail
      cases hword

end Sylar.Http
