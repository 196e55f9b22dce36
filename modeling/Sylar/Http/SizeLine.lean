import Sylar.Lib.Pieces
import Sylar.Http.Connection

/-!
# The size line of a chunk

The machine runs over the digits in one state, stores their value at the carriage
return and breaks out after the line feed. A call that ends inside the line
consumes what it got, and the next call starts the machine again: the size is
what the digits of the last piece say.
-/

namespace Sylar.Http

open Sylar.Lib Sylar.Lib.Ragel Sylar.Lib.Numerals Sylar.Lib.Pieces Sylar.Net

/-- The state that a step leads to. -/
def stateAfter (s : State ResponseAction) (b : UInt8) : State ResponseAction :=
  ((step s b).map Prod.snd).getD []

/-- The state after some digits, after the carriage return and after the line feed. -/
def sizeState : State ResponseAction := stateAfter responseStart 48
def returnState : State ResponseAction := stateAfter sizeState 13
def lineState : State ResponseAction := stateAfter returnState 10

section Machine

/-- A property of every byte, checked value by value. -/
theorem forall_byte {P : UInt8 → Prop} (h : ∀ n : Fin 256, P (UInt8.ofNat n)) (b : UInt8) :
    P b := by
  have hb := h ⟨b.toNat, b.toNat_lt⟩
  rwa [UInt8.ofNat_toNat] at hb

theorem step_start_digit {b : UInt8} (hb : (digit 16 b).isSome) :
    step responseStart b = some ([.mark], sizeState) := by
  revert b
  apply forall_byte
  decide +kernel

theorem step_size_digit {b : UInt8} (hb : (digit 16 b).isSome) :
    step sizeState b = some ([], sizeState) := by
  revert b
  apply forall_byte
  decide +kernel

theorem step_size_return : step sizeState 13 = some ([.chunkSize], returnState) := by
  decide +kernel

theorem step_return_line : step returnState 10 = some ([.done], lineState) := by
  decide +kernel

/-- A piece that starts behind the digits, or with a letter that is no digit, is rejected. -/
theorem step_start_bad {b : UInt8} (hb : b = 13 ∨ b = 10 ∨ b = 122) :
    step responseStart b = none := by
  obtain rfl | rfl | rfl := hb <;> decide +kernel

theorem final_states : final sizeState = false ∧ final returnState = false ∧
    final lineState = true := by
  decide +kernel

theorem scan_size_digits {p : Nat} {t : Text} (ht : ∀ b ∈ t, (digit 16 b).isSome) (u : Text) :
    scan HttpResponseParser.stop sizeState p (t ++ u) =
      scan HttpResponseParser.stop sizeState (p + t.length) u := by
  induction t generalizing p with
  | nil => rfl
  | cons b t ih =>
      have hstep := step_size_digit (ht b List.mem_cons_self)
      have hrest := @ih (p + 1) fun c hc => ht c (List.mem_cons_of_mem _ hc)
      rw [List.cons_append, scan_goes_on _ hstep rfl, hrest, List.length_cons, Nat.add_assoc,
        Nat.add_comm 1]
      rfl

/-- A numeral at the start of a piece: the mark is set and the rest is read in one state. -/
theorem scan_start_numeral {t : Text} (ht : IsNumeral 16 t) (u : Text) :
    scan HttpResponseParser.stop responseStart 0 (t ++ u) =
      ((0, .mark) :: (scan HttpResponseParser.stop sizeState t.length u).1,
        (scan HttpResponseParser.stop sizeState t.length u).2) := by
  obtain ⟨b, t, rfl⟩ := List.exists_cons_of_ne_nil ht.1
  have hstep := step_start_digit (ht.2 b List.mem_cons_self)
  have hrest := @scan_size_digits 1 t (fun c hc => ht.2 c (List.mem_cons_of_mem _ hc)) u
  rw [List.cons_append, scan_goes_on _ hstep rfl, hrest, List.length_cons, Nat.add_comm 1]
  rfl

theorem scan_size_line (p : Nat) (u : Text) :
    scan HttpResponseParser.stop sizeState p (13 :: 10 :: u) =
      ([(p, .chunkSize), (p + 1, .done)], .broke lineState (p + 2)) := by
  rw [scan_goes_on _ step_size_return rfl, scan_breaks _ step_return_line rfl]
  rfl

theorem scan_size_return (p : Nat) :
    scan HttpResponseParser.stop sizeState p [13] =
      ([(p, .chunkSize)], .running returnState) := by
  rw [scan_goes_on _ step_size_return rfl]
  rfl

theorem scan_start_bad {b : UInt8} (hb : b = 13 ∨ b = 10 ∨ b = 122) (u : Text) :
    scan HttpResponseParser.stop responseStart 0 (b :: u) = ([], .failed 0) := by
  exact scan_failed _ (step_start_bad hb) 0 u

end Machine

/-- The buffer holds `len` bytes; with them in front, these pieces are still to come. -/
structure Holds (env : ResponseEnv) (data : Text) (len : Nat) (pending pieces : List Text) :
    Prop where
  length : data.length = env.buffSize + 1
  len_le : len ≤ env.buffSize
  fit : ∀ w ∈ pieces, w ≠ [] ∧ w.length ≤ env.buffSize
  eq : pieces = if len = 0 then pending else data.take len :: pending

section Buffer

variable {env : ResponseEnv} {data w : Text} {len : Nat} {pending ws : List Text}

theorem Holds.pos (h : Holds env data len pending (w :: ws)) :
    0 < w.length ∧ w.length ≤ env.buffSize := by
  obtain ⟨hne, hle⟩ := h.fit w List.mem_cons_self
  exact ⟨List.length_pos_iff.mpr hne, hle⟩

/-- Taking bytes of the first piece leaves a buffer with the rest of it. -/
theorem Holds.advance {buffer : Text} {n : Nat} (hlen : buffer.length = env.buffSize + 1)
    (hfit : ∀ u ∈ w :: ws, u ≠ [] ∧ u.length ≤ env.buffSize) (hn : n ≤ w.length) :
    Holds env (w.drop n ++ buffer.drop (w.drop n).length) (w.length - n) ws
      (skip n (w :: ws)) := by
  have hw := (hfit w List.mem_cons_self).2
  refine ⟨?_, by omega, ?_, ?_⟩
  · rw [List.length_append, List.length_drop, List.length_drop]
    omega
  · intro u hu
    obtain ⟨hne, v, hv, hle⟩ := mem_skip hu fun v hv => (hfit v hv).1
    exact ⟨hne, hle.trans (hfit v hv).2⟩
  · rw [skip]
    by_cases hlt : n < w.length
    · have hsize : w.length - n = (w.drop n).length := List.length_drop.symm
      rw [if_pos hlt, if_neg (by omega), hsize, List.take_left]
    · rw [if_neg hlt, if_pos (by omega), Nat.sub_eq_zero_of_le hn]
      exact skip_zero fun v hv => (hfit v (List.mem_cons_of_mem _ hv)).1

/-- The read in front of an attempt makes the first piece the content of the buffer. -/
theorem exec_refill {begin : Bool} (h : Holds env data len pending (w :: ws))
    (hbegin : begin = true ∨ len = 0) :
    ∃ buffer, (HttpConnection.refill env begin data len).exec ⟨pending, false⟩ =
        (.ok (some (buffer, w.length)), ⟨ws, false⟩) ∧
      buffer.take w.length = w ∧ buffer.length = env.buffSize + 1 := by
  obtain ⟨hpos, hle⟩ := h.pos
  have heq := h.eq
  have hlength := h.length
  by_cases hzero : len = 0
  · subst hzero
    rw [if_pos rfl] at heq
    subst heq
    refine ⟨Blocks.overwrite data 0 w, ?_, by simp [Blocks.overwrite], ?_⟩
    · have hread : (Socket.read env.buffSize : Method Socket Fault Text).exec ⟨w :: ws, false⟩ =
          (.ok w, ⟨ws, false⟩) := by
        rw [Socket.exec_read, Socket.recv, if_pos hle]
      have hne : w ≠ [] := List.length_pos_iff.mp hpos
      rw [HttpConnection.refill, if_pos (by simp), Nat.sub_zero, Method.exec_bind_ok hread,
        if_neg hne, Nat.zero_add]
      rfl
    · rw [Blocks.length_overwrite (by omega)]
      exact hlength
  · rw [if_neg hzero] at heq
    obtain ⟨rfl, rfl⟩ := List.cons.inj heq
    have hbegin := hbegin.resolve_right hzero
    subst hbegin
    have hsize : (data.take len).length = len := by
      rw [List.length_take]
      have := h.len_le
      omega
    rw [hsize]
    refine ⟨data, ?_, rfl, hlength⟩
    rw [HttpConnection.refill, if_neg (by simp [hzero])]
    rfl

end Buffer

section Attempt

variable {env : ResponseEnv} {data w : Text} {len rounds : Nat} {pending ws : List Text}
  {begin : Bool} {parser y : HttpResponseParser} {es : List (Nat × ResponseAction)}

/-- What a call for a chunk starts from. -/
def fresh (parser : HttpResponseParser) : HttpResponseParser :=
  parser.setParser HttpclientParser.init

/-- The actions of a size line touch neither the response nor the offsets. -/
structure KeepsHead (parser y : HttpResponseParser) : Prop where
  data : y.data = parser.data
  error : y.error = parser.error
  nread : y.parser.nread = 0
  mark : y.parser.mark = 0
  fieldStart : y.parser.fieldStart = 0
  fieldLen : y.parser.fieldLen = 0

/-- One call of `execute` for a chunk, by the run of the machine over the bytes. -/
theorem execute_chunk {buffer : Text} {o : Outcome ResponseAction}
    (hw : buffer.take w.length = w) (hpos : 0 < w.length)
    (hscan : scan HttpResponseParser.stop responseStart 0 w = (es, o))
    (hrun : runEvents (HttpResponseParser.action buffer) es (fresh parser) = .ok y)
    (hkeeps : KeepsHead parser y) :
    parser.execute buffer w.length true =
      .ok ((o.result 0 w.length).2,
        w.drop (o.result 0 w.length).2 ++
          buffer.drop (w.drop (o.result 0 w.length).2).length,
        y.setParser fun c => { c with
          cs := (o.result 0 w.length).1, nread := (o.result 0 w.length).2 }) := by
  have hexec : HttpResponseParser.writeExec buffer w.length (fresh parser) =
      .ok ((o.result 0 w.length).1, (o.result 0 w.length).2, y) := by
    change exec (HttpResponseParser.action buffer) HttpResponseParser.stop responseStart 0
      (buffer.take w.length) (fresh parser) = _
    rw [hw, exec_eq, hscan, hrun]
    rfl
  have hchecked : HttpResponseParser.checked w.length y.parser = true := by
    simp only [HttpResponseParser.checked, hkeeps.mark, hkeeps.fieldStart, hkeeps.fieldLen,
      Bool.and_eq_true, decide_eq_true_eq]
    exact ⟨⟨hpos, Nat.zero_le _⟩, hpos⟩
  have hcall : HttpResponseParser.httpclientParserExecute buffer w.length (fresh parser) =
      .ok ((o.result 0 w.length).2, y.setParser fun c => { c with
        cs := (o.result 0 w.length).1, nread := (o.result 0 w.length).2 }) := by
    change (HttpResponseParser.writeExec buffer w.length (fresh parser) >>= _) = _
    rw [hexec]
    change (if HttpResponseParser.checked w.length y.parser = true then _ else _) = _
    rw [if_pos hchecked]
    simp only [HttpResponseParser.setParser, hkeeps.nread, Nat.zero_add]
  change (HttpResponseParser.httpclientParserExecute buffer w.length (fresh parser) >>= _) = _
  rw [hcall]
  change Except.ok _ = _
  rw [hw]

/-- A round of the loop, once the parser has returned. -/
theorem exec_round (rounds : Nat) (parser : HttpResponseParser)
    (h : Holds env data len pending (w :: ws)) (hbegin : begin = true ∨ len = 0) :
    ∃ buffer, buffer.take w.length = w ∧ buffer.length = env.buffSize + 1 ∧
      ∀ n data' parser', parser.execute buffer w.length true = .ok (n, data', parser') →
        (HttpConnection.recvChunkSize env (rounds + 1) parser data len begin).exec
            ⟨pending, false⟩ =
          if parser'.hasError then (.ok none, ⟨ws, true⟩)
          else if w.length - n = env.buffSize then (.ok none, ⟨ws, true⟩)
          else if parser'.isFinished then
            (.ok (some (parser', data', w.length - n)), ⟨ws, false⟩)
          else
            (HttpConnection.recvChunkSize env rounds parser' data' (w.length - n) false).exec
              ⟨ws, false⟩ := by
  obtain ⟨-, hle⟩ := h.pos
  obtain ⟨buffer, hrefill, htake, hlen⟩ := exec_refill h hbegin
  refine ⟨HttpConnection.terminate buffer w.length, ?_, ?_, ?_⟩
  · rw [HttpConnection.terminate, Blocks.overwrite, htake, List.append_assoc, List.take_left]
  · rw [HttpConnection.terminate]
    refine (Blocks.length_overwrite ?_).trans hlen
    rw [List.length_singleton]
    omega
  · intro n data' parser' hexec
    have hlift : (Method.lift (parser.execute (HttpConnection.terminate buffer w.length) w.length
        true) : Method Socket Fault _).exec ⟨ws, false⟩ =
        (.ok (n, data', parser'), ⟨ws, false⟩) := by
      rw [Method.exec_lift, hexec]
    rw [HttpConnection.recvChunkSize, Method.exec_bind_ok hrefill]
    simp only
    rw [Method.exec_bind_ok hlift]
    simp only
    split
    · rfl
    · split
      · rfl
      · split
        · rfl
        · rfl

/-- A piece that ends inside the line is consumed, and the next attempt starts anew. -/
theorem round_running (rounds : Nat) {s : State ResponseAction}
    (h : Holds env data len pending (w :: ws)) (hbegin : begin = true ∨ len = 0)
    (herr : parser.error = 0)
    (hscan : scan HttpResponseParser.stop responseStart 0 w = (es, .running s))
    (hfinal : final s = false)
    (hrun : ∀ buffer, ∃ y, runEvents (HttpResponseParser.action buffer) es (fresh parser) = .ok y ∧
      KeepsHead parser y) :
    ∃ parser' data', parser'.data = parser.data ∧ parser'.error = 0 ∧
      Holds env data' 0 ws ws ∧
      (HttpConnection.recvChunkSize env (rounds + 1) parser data len begin).exec
          ⟨pending, false⟩ =
        (HttpConnection.recvChunkSize env rounds parser' data' 0 false).exec ⟨ws, false⟩ := by
  obtain ⟨hpos, hle⟩ := h.pos
  obtain ⟨buffer, htake, hlen, hround⟩ := exec_round rounds parser h hbegin
  obtain ⟨y, hy, hkeeps⟩ := hrun buffer
  have hexec := execute_chunk htake hpos hscan hy hkeeps
  simp only [Outcome.result, Nat.zero_add] at hexec
  have hholds := Holds.advance hlen h.fit (Nat.le_refl w.length)
  have hskip : skip w.length (w :: ws) = ws := by
    rw [skip, if_neg (Nat.lt_irrefl _), Nat.sub_self]
    exact skip_zero fun v hv => (h.fit v (List.mem_cons_of_mem _ hv)).1
  rw [hskip, Nat.sub_self] at hholds
  refine ⟨y.setParser fun c => { c with cs := some s, nread := w.length }, _, hkeeps.data,
    hkeeps.error.trans herr, hholds, ?_⟩
  rw [hround _ _ _ hexec, if_neg, Nat.sub_self, if_neg (by omega), if_neg]
  · simp [HttpResponseParser.isFinished, HttpclientParser.isFinished,
      HttpResponseParser.setParser, hfinal]
  · simp [HttpResponseParser.hasError, HttpclientParser.hasError, HttpResponseParser.setParser,
      hkeeps.error, herr]

/-- A piece in which the line ends: the loop returns what follows the line. -/
theorem round_broke (rounds : Nat) {s : State ResponseAction} {n : Nat}
    (h : Holds env data len pending (w :: ws)) (hbegin : begin = true ∨ len = 0)
    (herr : parser.error = 0) (hn : 0 < n ∧ n ≤ w.length)
    (hscan : scan HttpResponseParser.stop responseStart 0 w = (es, .broke s n))
    (hfinal : final s = true) {size : Int}
    (hrun : ∀ buffer : Text, buffer.take w.length = w →
      ∃ y, runEvents (HttpResponseParser.action buffer) es (fresh parser) = .ok y ∧
        KeepsHead parser y ∧ y.parser.contentLen = size ∧
        y.parser.chunksDone = decide (size ≤ 0)) :
    ∃ parser' data' len', parser'.data = parser.data ∧ parser'.error = 0 ∧
      parser'.parser.contentLen = size ∧ parser'.parser.chunksDone = decide (size ≤ 0) ∧
      Holds env data' len' ws (skip n (w :: ws)) ∧
      (HttpConnection.recvChunkSize env (rounds + 1) parser data len begin).exec
          ⟨pending, false⟩ = (.ok (some (parser', data', len')), ⟨ws, false⟩) := by
  obtain ⟨hpos, hle⟩ := h.pos
  obtain ⟨buffer, htake, hlen, hround⟩ := exec_round rounds parser h hbegin
  obtain ⟨y, hy, hkeeps, hsize, hdone⟩ := hrun buffer htake
  have hexec := execute_chunk htake hpos hscan hy hkeeps
  simp only [Outcome.result] at hexec
  refine ⟨y.setParser fun c => { c with cs := some s, nread := n }, _, _, hkeeps.data,
    hkeeps.error.trans herr, hsize, hdone, Holds.advance hlen h.fit hn.2, ?_⟩
  rw [hround _ _ _ hexec, if_neg, if_neg (by omega), if_pos]
  · simp [HttpResponseParser.isFinished, HttpclientParser.isFinished,
      HttpResponseParser.setParser, hfinal]
  · simp [HttpResponseParser.hasError, HttpclientParser.hasError, HttpResponseParser.setParser,
      hkeeps.error, herr]

/-- A piece that the machine rejects at its first byte ends the call. -/
theorem round_failed {b : UInt8} {u : Text} (h : Holds env data len pending ((b :: u) :: ws))
    (hbegin : begin = true ∨ len = 0) (hb : b = 13 ∨ b = 10 ∨ b = 122) :
    ((HttpConnection.recvChunkSize env (rounds + 1) parser data len begin).exec
      ⟨pending, false⟩).1 = .ok none := by
  obtain ⟨buffer, htake, hlen, hround⟩ := exec_round rounds parser h hbegin
  have hkeeps : KeepsHead parser (fresh parser) := ⟨rfl, rfl, rfl, rfl, rfl, rfl⟩
  have hexec := execute_chunk htake h.pos.1 (scan_start_bad hb u) rfl hkeeps
  rw [hround _ _ _ hexec, if_pos]
  simp [HttpResponseParser.hasError, HttpclientParser.hasError, HttpResponseParser.setParser,
    Outcome.result]

end Attempt

/-- The digits of a size line that the code takes for the size when the line and
what follows it arrive in pieces of the given lengths: those of the piece in
which the line ends. There are none where a piece starts behind the digits. -/
def sizeDigits : Text → List Nat → Option Text
  | _, [] => none
  | d, k :: ks =>
      if d.length + 2 ≤ k then some d
      else if k < d.length then sizeDigits (d.drop k) ks
      else none

section Loop

variable {env : ResponseEnv} {data d u : Text} {len rounds : Nat} {pending pieces : List Text}
  {begin : Bool} {parser : HttpResponseParser}

/-- The response parser after a size line with the given value. -/
def sized (size : Int) (p : Nat) (parser : HttpResponseParser) : HttpResponseParser :=
  (fresh parser).setParser fun c =>
    { c with chunked := true, contentLen := size, chunksDone := size ≤ 0, bodyStart := p }

theorem KeepsHead.sized (size : Int) (p : Nat) (parser : HttpResponseParser) :
    KeepsHead parser (sized size p parser) :=
  ⟨rfl, rfl, rfl, rfl, rfl, rfl⟩

/-- The events of a whole line store the value of its digits. -/
theorem run_line {buffer : Text} (hd : IsNumeral 16 d) (hlt : numeral 16 0 d < 2 ^ 31)
    (hbuffer : buffer.take (d ++ 13 :: 10 :: u).length = d ++ 13 :: 10 :: u) :
    runEvents (HttpResponseParser.action buffer)
        [(0, .mark), (d.length, .chunkSize), (d.length + 1, .done)] (fresh parser) =
      .ok (sized (numeral 16 0 d) (d.length + 2) parser) := by
  have hsplit : buffer =
      d ++ 13 :: (10 :: u ++ buffer.drop (d ++ 13 :: 10 :: u).length) := by
    conv_lhs => rw [← List.take_append_drop (d ++ 13 :: 10 :: u).length buffer, hbuffer]
    simp
  have hvalue : toInt (strtol 16 buffer) = numeral 16 0 d := by
    rw [hsplit, strtol_numeral hd (by decide) (by decide) (by omega), toInt_of_lt hlt]
  rw [← hvalue]
  rfl

/-- How the first piece of a line splits it. -/
theorem split_line {w : Text} {ws : List Text} (h : w ++ ws.flatten = d ++ 13 :: 10 :: u) :
    (d.length + 2 ≤ w.length → ∃ v, w = d ++ 13 :: 10 :: v) ∧
    (w.length < d.length → w = d.take w.length ∧
      ws.flatten = d.drop w.length ++ 13 :: 10 :: u) ∧
    (w.length = d.length → w = d ∧ ws.flatten = 13 :: 10 :: u) ∧
    (w.length = d.length + 1 → w = d ++ [13] ∧ ws.flatten = 10 :: u) := by
  refine ⟨?_, ?_, ?_, ?_⟩
  · intro hle
    have hprefix : d ++ [13, 10] <+: w := by
      apply List.prefix_of_prefix_length_le ⟨u, by simp⟩ ⟨ws.flatten, h⟩
      simpa using hle
    obtain ⟨v, rfl⟩ := hprefix
    exact ⟨v, by simp⟩
  · intro hlt
    have hd := List.take_append_drop w.length d
    rw [← hd, List.append_assoc] at h
    exact List.append_inj h (by rw [List.length_take]; omega)
  · intro hlen
    exact List.append_inj h hlen
  · intro hlen
    have hsplit : w ++ ws.flatten = (d ++ [13]) ++ 10 :: u := by simpa using h
    exact List.append_inj hsplit (by simpa using hlen)

/-- The next piece starts with a byte that no size line starts with. -/
theorem recvChunkSize_bad {b : UInt8} (h : Holds env data len pending pieces)
    (hbegin : begin = true ∨ len = 0) (hb : b = 13 ∨ b = 10 ∨ b = 122)
    (hflat : pieces.flatten = b :: u) :
    ((HttpConnection.recvChunkSize env (rounds + 1) parser data len begin).exec
      ⟨pending, false⟩).1 = .ok none := by
  cases pieces with
  | nil => cases hflat
  | cons w ws =>
      obtain ⟨c, v, rfl⟩ := List.exists_cons_of_ne_nil (h.fit w List.mem_cons_self).1
      obtain ⟨rfl, -⟩ := List.cons.inj hflat
      exact round_failed h hbegin hb

/-- A piece of digits is consumed. -/
theorem round_digits (rounds : Nat) {w : Text} {ws : List Text}
    (h : Holds env data len pending (w :: ws)) (hbegin : begin = true ∨ len = 0)
    (herr : parser.error = 0) (hw : ∀ b ∈ w, (digit 16 b).isSome) :
    ∃ parser' data', parser'.data = parser.data ∧ parser'.error = 0 ∧
      Holds env data' 0 ws ws ∧
      (HttpConnection.recvChunkSize env (rounds + 1) parser data len begin).exec
          ⟨pending, false⟩ =
        (HttpConnection.recvChunkSize env rounds parser' data' 0 false).exec ⟨ws, false⟩ := by
  have hscan := scan_start_numeral ⟨(h.fit w List.mem_cons_self).1, hw⟩ []
  rw [List.append_nil] at hscan
  exact round_running rounds h hbegin herr hscan final_states.1
    fun buffer => ⟨fresh parser, rfl, ⟨rfl, rfl, rfl, rfl, rfl, rfl⟩⟩

/-- So is a piece that ends between the carriage return and the line feed. -/
theorem round_return (rounds : Nat) {ws : List Text}
    (h : Holds env data len pending ((d ++ [13]) :: ws)) (hbegin : begin = true ∨ len = 0)
    (herr : parser.error = 0) (hd : IsNumeral 16 d) :
    ∃ parser' data', parser'.data = parser.data ∧ parser'.error = 0 ∧
      Holds env data' 0 ws ws ∧
      (HttpConnection.recvChunkSize env (rounds + 1) parser data len begin).exec
          ⟨pending, false⟩ =
        (HttpConnection.recvChunkSize env rounds parser' data' 0 false).exec ⟨ws, false⟩ := by
  have hscan := scan_start_numeral hd [13]
  rw [scan_size_return] at hscan
  exact round_running rounds h hbegin herr hscan final_states.2.1
    fun buffer => ⟨sized (toInt (strtol 16 buffer)) 0 parser, rfl, KeepsHead.sized _ _ parser⟩

/-- The loop returns the size that the digits of the last piece say. -/
theorem recvChunkSize_some {e : Text} (h : Holds env data len pending pieces)
    (hbegin : begin = true ∨ len = 0) (herr : parser.error = 0) (hd : IsNumeral 16 d)
    (hlt : numeral 16 0 d < 2 ^ 31) (hflat : pieces.flatten = d ++ 13 :: 10 :: u)
    (hrounds : pieces.length ≤ rounds)
    (hdigits : sizeDigits d (pieces.map List.length) = some e) :
    ∃ (parser' : HttpResponseParser) (data' : Text) (len' : Nat) (pending' : List Text),
      parser'.data = parser.data ∧ parser'.error = 0 ∧
      parser'.parser.contentLen = (numeral 16 0 e : Nat) ∧
      parser'.parser.chunksDone = decide (numeral 16 0 e = 0) ∧
      Holds env data' len' pending' (skip (d.length + 2) pieces) ∧
      (HttpConnection.recvChunkSize env rounds parser data len begin).exec ⟨pending, false⟩ =
        (.ok (some (parser', data', len')), ⟨pending', false⟩) := by
  induction pieces generalizing d parser data len pending begin rounds with
  | nil => cases hdigits
  | cons w ws ih =>
      obtain ⟨rounds, rfl⟩ := Nat.exists_eq_add_of_le' ((Nat.succ_pos _).trans_le hrounds)
      have hws : ws.length ≤ rounds := Nat.le_of_succ_le_succ hrounds
      obtain ⟨hwhole, hinside, -, -⟩ := split_line hflat
      rw [List.map_cons, sizeDigits] at hdigits
      split at hdigits
      · next hle =>
          obtain rfl := Option.some.inj hdigits
          obtain ⟨v, rfl⟩ := hwhole hle
          have hscan := scan_start_numeral hd (13 :: 10 :: v)
          rw [scan_size_line] at hscan
          obtain ⟨parser', data', len', hdata, herr', hsize, hdone, hholds, hexec⟩ :=
            round_broke rounds h hbegin herr ⟨Nat.succ_pos _, hle⟩ hscan final_states.2.2
              fun buffer hbuffer =>
                ⟨_, run_line hd hlt hbuffer, KeepsHead.sized _ _ parser, rfl, rfl⟩
          have hzero : ((numeral 16 0 d : Nat) : Int) ≤ 0 ↔ numeral 16 0 d = 0 := by omega
          exact ⟨parser', data', len', ws, hdata, herr', hsize,
            hdone.trans (decide_eq_decide.mpr hzero), hholds, hexec⟩
      · split at hdigits
        · next hlt' =>
            obtain ⟨hw, hrest⟩ := hinside hlt'
            obtain ⟨parser₁, data₁, hdata₁, herr₁, hholds₁, hexec₁⟩ :=
              round_digits rounds h hbegin herr fun b hb =>
                hd.2 b (List.mem_of_mem_take (hw ▸ hb))
            have hvalue := numeral_take_drop hd.2 w.length
            obtain ⟨parser', data', len', pending', hdata, herr', hsize, hdone, hholds, hexec⟩ :=
              ih hholds₁ (Or.inr rfl) herr₁ (hd.drop hlt') (by omega) hrest hws hdigits
            have hskip : skip (d.length + 2) (w :: ws) =
                skip ((d.drop w.length).length + 2) ws := by
              rw [skip, if_neg (by omega), List.length_drop]
              congr 1
              omega
            rw [hskip, hexec₁]
            exact ⟨parser', data', len', pending', hdata.trans hdata₁, herr', hsize, hdone, hholds,
              hexec⟩
        · cases hdigits

/-- The loop gives up where a piece starts behind the digits. -/
theorem recvChunkSize_none (h : Holds env data len pending pieces)
    (hbegin : begin = true ∨ len = 0) (herr : parser.error = 0) (hd : IsNumeral 16 d)
    (hflat : pieces.flatten = d ++ 13 :: 10 :: u) (hrounds : pieces.length ≤ rounds)
    (hdigits : sizeDigits d (pieces.map List.length) = none) :
    ((HttpConnection.recvChunkSize env rounds parser data len begin).exec
      ⟨pending, false⟩).1 = .ok none := by
  induction pieces generalizing d parser data len pending begin rounds with
  | nil => simp at hflat
  | cons w ws ih =>
      obtain ⟨rounds, rfl⟩ := Nat.exists_eq_add_of_le' ((Nat.succ_pos _).trans_le hrounds)
      have hws : ws.length ≤ rounds := Nat.le_of_succ_le_succ hrounds
      obtain ⟨-, hinside, hbefore, hbetween⟩ := split_line hflat
      -- the piece after this one is rejected at its first byte
      have hnext : ∀ {b parser' data'}, Holds env data' 0 ws ws → b = 13 ∨ b = 10 ∨ b = 122 →
          (∃ v, ws.flatten = b :: v) →
          ((HttpConnection.recvChunkSize env rounds parser' data' 0 false).exec
            ⟨ws, false⟩).1 = .ok none := by
        rintro b parser' data' hholds hb ⟨v, hv⟩
        have hpos : 0 < ws.length := List.length_pos_iff.mpr (by rintro rfl; cases hv)
        obtain ⟨rounds, rfl⟩ := Nat.exists_eq_add_of_le' (hpos.trans_le hws)
        exact recvChunkSize_bad hholds (Or.inr rfl) hb hv
      rw [List.map_cons, sizeDigits] at hdigits
      split at hdigits
      · cases hdigits
      · next hge =>
          split at hdigits
          · next hlt' =>
              obtain ⟨hw, hrest⟩ := hinside hlt'
              obtain ⟨parser₁, data₁, -, herr₁, hholds₁, hexec₁⟩ :=
                round_digits rounds h hbegin herr fun b hb =>
                  hd.2 b (List.mem_of_mem_take (hw ▸ hb))
              rw [hexec₁]
              exact ih hholds₁ (Or.inr rfl) herr₁ (hd.drop hlt') hrest hws hdigits
          · next hge' =>
              obtain hlen | hlen : w.length = d.length ∨ w.length = d.length + 1 := by omega
              · obtain ⟨rfl, hrest⟩ := hbefore hlen
                obtain ⟨parser₁, data₁, -, -, hholds₁, hexec₁⟩ :=
                  round_digits rounds h hbegin herr hd.2
                rw [hexec₁]
                exact hnext hholds₁ (Or.inl rfl) ⟨_, hrest⟩
              · obtain ⟨rfl, hrest⟩ := hbetween hlen
                obtain ⟨parser₁, data₁, -, -, hholds₁, hexec₁⟩ :=
                  round_return rounds h hbegin herr hd
                rw [hexec₁]
                exact hnext hholds₁ (Or.inr (Or.inl rfl)) ⟨_, hrest⟩

end Loop

end Sylar.Http
