import Sylar.Http.SizeLine

/-!
# The chunks of a body

The positions of the size lines decide which sizes are read as they were sent.
Where all of them are, the loop over the chunks returns their data, however the
reads cut it. Where one is not, there is data that the loop does not return.
-/

namespace Sylar.Http

open Sylar.Lib Sylar.Lib.Numerals Sylar.Lib.Pieces Sylar.Net

/-- A chunk as it is sent: the size line, the data and a line end. -/
def encodeChunk (f : Text × Text) : Text := f.1 ++ 13 :: 10 :: (f.2 ++ [13, 10])

def encodeChunks (fs : List (Text × Text)) : Text := fs.flatMap encodeChunk

/-- The size lines of a chunked body, the last of them that of the closing chunk. -/
structure Framing where
  sizes : List Text
  last : Text
  sizes_ok : ∀ d ∈ sizes, IsNumeral 16 d ∧ 0 < numeral 16 0 d ∧ numeral 16 0 d < 2 ^ 31 - 2
  last_ok : IsNumeral 16 last ∧ numeral 16 0 last = 0

namespace Framing

/-- The size lines with the positions at which they start, the first one at `p`. -/
def linesFrom (p : Nat) : List Text → List (Nat × Text)
  | [] => []
  | d :: ds => (p, d) :: linesFrom (p + (d.length + 2 + (numeral 16 0 d + 2))) ds

def lines (f : Framing) : List (Nat × Text) := linesFrom 0 (f.sizes ++ [f.last])

/-- The data of the chunks has the sizes that the lines say. -/
def Fits (f : Framing) (chunks : List Text) : Prop :=
  chunks.map List.length = f.sizes.map (numeral 16 0)

/-- The byte stream of a body. -/
def stream (f : Framing) (chunks : List Text) : Text :=
  encodeChunks (f.sizes.zip chunks ++ [(f.last, [])])

/-- The length of the stream. -/
def length (f : Framing) : Nat :=
  ((f.sizes ++ [f.last]).map fun d => d.length + 2 + (numeral 16 0 d + 2)).sum

end Framing

/-- No read starts inside the size line, except behind leading zeros and before the
last digit. -/
def LeavesSize (reads : List Nat) (line : Nat × Text) : Prop :=
  ∀ b ∈ reads, line.1 < b → b < line.1 + line.2.length + 2 →
    b < line.1 + line.2.length ∧ ∀ x ∈ line.2.take (b - line.1), x = 48

instance (reads : List Nat) (line : Nat × Text) : Decidable (LeavesSize reads line) :=
  inferInstanceAs (Decidable (∀ b ∈ reads, _))

section Positions

variable {d e : Text} {p : Nat} {ks : List Nat}

/-- A numeral has the value zero when all its digits are zeros. -/
theorem numeral_eq_zero_iff {t : Text} (ht : ∀ b ∈ t, (digit 16 b).isSome) :
    numeral 16 0 t = 0 ↔ ∀ x ∈ t, x = 48 := by
  have hdigit : ∀ b : UInt8, digit 16 b = some 0 ↔ b = 48 := by
    apply forall_byte
    decide +kernel
  induction t with
  | nil => simp [numeral]
  | cons b t ih =>
      obtain ⟨v, hv⟩ := Option.isSome_iff_exists.mp (ht b List.mem_cons_self)
      have htail : ∀ c ∈ t, (digit 16 c).isSome := fun c hc => ht c (List.mem_cons_of_mem _ hc)
      simp only [numeral, hv, List.forall_mem_cons]
      refine Iff.trans ?_ (and_congr (hdigit b) (ih htail))
      rw [numeral_acc htail, hv, Option.some.injEq]
      simp

/-- What is read of a size line is a numeral that is not greater. -/
theorem sizeDigits_le (hd : IsNumeral 16 d) (h : sizeDigits d ks = some e) :
    IsNumeral 16 e ∧ numeral 16 0 e ≤ numeral 16 0 d := by
  induction ks generalizing d with
  | nil => cases h
  | cons k ks ih =>
      rw [sizeDigits] at h
      split at h
      · obtain rfl := Option.some.inj h
        exact ⟨hd, Nat.le_refl _⟩
      · split at h
        · next hlt =>
            obtain ⟨he, hle⟩ := ih (hd.drop hlt) h
            have hsplit := numeral_take_drop hd.2 k
            exact ⟨he, by omega⟩
        · cases h

/-- Lost digits do not matter exactly when they are zeros. -/
theorem sizeDigits_drop_iff {k : Nat} (hd : IsNumeral 16 d) (hk : k < d.length) :
    (∃ e, sizeDigits (d.drop k) ks = some e ∧ numeral 16 0 e = numeral 16 0 d) ↔
      (∀ x ∈ d.take k, x = 48) ∧
        ∃ e, sizeDigits (d.drop k) ks = some e ∧ numeral 16 0 e = numeral 16 0 (d.drop k) := by
  have hfront : ∀ b ∈ d.take k, (digit 16 b).isSome :=
    fun b hb => hd.2 b (List.mem_of_mem_take hb)
  have hzero := numeral_eq_zero_iff hfront
  have hsplit := numeral_take_drop hd.2 k
  constructor
  · rintro ⟨e, he, hvalue⟩
    have hle := (sizeDigits_le (hd.drop hk) he).2
    have hlost : numeral 16 0 (d.take k) = 0 := by
      by_contra hne
      have hplace : 0 < 16 ^ (d.drop k).length := Nat.pow_pos (by decide)
      have hpos := Nat.mul_pos (Nat.pos_of_ne_zero hne) hplace
      omega
    refine ⟨hzero.mp hlost, e, he, ?_⟩
    rw [hlost, Nat.zero_mul, Nat.zero_add] at hsplit
    exact hvalue.trans hsplit
  · rintro ⟨hlost, e, he, hvalue⟩
    refine ⟨e, he, ?_⟩
    rw [hzero.mpr hlost, Nat.zero_mul, Nat.zero_add] at hsplit
    exact hvalue.trans hsplit.symm

/-- The size is read as it was sent exactly when no read starts inside its line. -/
theorem sizeDigits_iff (hd : IsNumeral 16 d) (hsum : d.length + 2 ≤ ks.sum) :
    (∃ e, sizeDigits d ks = some e ∧ numeral 16 0 e = numeral 16 0 d) ↔
      LeavesSize (starts p ks) (p, d) := by
  induction ks generalizing d p with
  | nil => simp at hsum
  | cons k ks ih =>
      rw [List.sum_cons] at hsum
      rw [sizeDigits]
      by_cases hwhole : d.length + 2 ≤ k
      · rw [if_pos hwhole]
        refine iff_of_true ⟨d, rfl, rfl⟩ ?_
        intro b hb hlt hend
        obtain rfl | hb := List.mem_cons.mp hb
        · exact absurd hlt (Nat.lt_irrefl _)
        · have hle := le_of_mem_starts hb
          simp only at hend
          omega
      · have hne : ks ≠ [] := by
          rintro rfl
          rw [List.sum_nil] at hsum
          omega
        obtain ⟨l, ls, rfl⟩ := List.exists_cons_of_ne_nil hne
        have hnext : p + k ∈ starts p (k :: l :: ls) := List.mem_cons_of_mem _ List.mem_cons_self
        rw [if_neg hwhole]
        by_cases hlt : k < d.length
        · rw [if_pos hlt, sizeDigits_drop_iff hd hlt,
            @ih (d.drop k) (p + k) (hd.drop hlt) (by rw [List.length_drop]; omega)]
          constructor
          · rintro ⟨hzero, hrest⟩ b hb hpb hend
            simp only at hpb hend ⊢
            obtain rfl | hb := List.mem_cons.mp hb
            · exact absurd hpb (Nat.lt_irrefl _)
            · have hle := le_of_mem_starts hb
              obtain rfl | hbk := hle.eq_or_lt
              · refine ⟨by omega, ?_⟩
                rwa [Nat.add_sub_cancel_left]
              · obtain ⟨hin, hzeros⟩ := hrest b hb hbk (by simp only [List.length_drop]; omega)
                simp only [List.length_drop] at hin
                refine ⟨by omega, ?_⟩
                have hsplit : d.take (b - p) = d.take k ++ (d.drop k).take (b - (p + k)) := by
                  rw [← List.take_add]
                  congr 1
                  omega
                rw [hsplit]
                intro x hx
                obtain hx | hx := List.mem_append.mp hx
                · exact hzero x hx
                · exact hzeros x hx
          · intro hall
            constructor
            · obtain rfl | hk := Nat.eq_zero_or_pos k
              · simp
              · have hzeros := (hall _ hnext (by simp only; omega) (by simp only; omega)).2
                rwa [Nat.add_sub_cancel_left] at hzeros
            · intro b hb hbk hend
              simp only [List.length_drop] at hbk hend ⊢
              obtain ⟨hin, hzeros⟩ := hall b (List.mem_cons_of_mem _ hb) (by simp only; omega)
                (by simp only; omega)
              simp only at hin hzeros
              refine ⟨by omega, ?_⟩
              intro x hx
              apply hzeros
              rw [← List.take_append_drop k d, List.take_append]
              refine List.mem_append_right _ ?_
              rw [List.length_take, Nat.min_eq_left hlt.le]
              rwa [Nat.sub_sub]
        · rw [if_neg hlt]
          refine iff_of_false (fun h => by obtain ⟨e, he, -⟩ := h; cases he) ?_
          intro hall
          obtain ⟨hin, -⟩ := hall _ hnext
            (by have := List.length_pos_iff.mpr hd.1; simp only; omega) (by simp only; omega)
          simp only at hin
          omega

/-- Every size is read as it was sent, one line after the other. -/
def SizesRead : List Text → List Nat → Prop
  | [], _ => True
  | d :: ds, ks =>
      (∃ e, sizeDigits d ks = some e ∧ numeral 16 0 e = numeral 16 0 d) ∧
        SizesRead ds (skipLengths (d.length + 2 + (numeral 16 0 d + 2)) ks)

theorem le_of_mem_linesFrom {ds : List Text} {line : Nat × Text}
    (h : line ∈ Framing.linesFrom p ds) : p ≤ line.1 := by
  induction ds generalizing p with
  | nil => cases h
  | cons d ds ih =>
      obtain rfl | h := List.mem_cons.mp h
      · exact Nat.le_refl _
      · exact Nat.le_of_add_right_le (ih h)

theorem sizesRead_iff {ds : List Text} (hds : ∀ d ∈ ds, IsNumeral 16 d)
    (hsum : (ds.map fun d => d.length + 2 + (numeral 16 0 d + 2)).sum ≤ ks.sum) :
    SizesRead ds ks ↔ ∀ line ∈ Framing.linesFrom p ds, LeavesSize (starts p ks) line := by
  induction ds generalizing p ks with
  | nil => simp [SizesRead, Framing.linesFrom]
  | cons d ds ih =>
      rw [List.map_cons, List.sum_cons] at hsum
      have hrest := @ih (p + (d.length + 2 + (numeral 16 0 d + 2)))
        (skipLengths (d.length + 2 + (numeral 16 0 d + 2)) ks)
        (fun c hc => hds c (List.mem_cons_of_mem _ hc)) (by rw [sum_skipLengths]; omega)
      rw [SizesRead, Framing.linesFrom, List.forall_mem_cons,
        sizeDigits_iff (hds d List.mem_cons_self) (by omega), hrest]
      refine and_congr Iff.rfl (forall₂_congr fun line hline => ?_)
      have hstart := le_of_mem_linesFrom hline
      -- a read that starts behind this chunk starts there in the rest of the stream too
      refine forall_congr' fun b => ⟨fun h hb hlt => ?_, fun h hb hlt => ?_⟩
      · exact h ((mem_starts_skipLengths (hstart.trans_lt hlt)).mpr hb) hlt
      · exact h ((mem_starts_skipLengths (hstart.trans_lt hlt)).mp hb) hlt

end Positions

section Data

variable {env : ResponseEnv} {body data : Text} {len left rounds : Nat}
  {pending pieces : List Text}

/-- The loop over the rest of a chunk takes that many bytes off the pieces. -/
theorem exec_readLeft (hdata : data.length = env.buffSize + 1)
    (hfit : ∀ w ∈ pending, w ≠ [] ∧ w.length ≤ env.buffSize)
    (hleft : left ≤ pending.flatten.length) (hrounds : left ≤ rounds) :
    ∃ data', data'.length = env.buffSize + 1 ∧
      (HttpConnection.readLeft env rounds body data left).exec ⟨pending, false⟩ =
        (.ok (some (body ++ pending.flatten.take left, data')), ⟨skip left pending, false⟩) := by
  induction rounds generalizing body data left pending with
  | zero =>
      obtain rfl := Nat.le_zero.mp hrounds
      refine ⟨data, hdata, ?_⟩
      rw [skip_zero fun w hw => (hfit w hw).1, List.take_zero, List.append_nil]
      rfl
  | succ rounds ih =>
      cases left with
      | zero =>
          refine ⟨data, hdata, ?_⟩
          rw [skip_zero fun w hw => (hfit w hw).1, List.take_zero, List.append_nil]
          rfl
      | succ left =>
          cases pending with
          | nil => simp at hleft
          | cons w ws =>
              obtain ⟨hne, hle⟩ := hfit w List.mem_cons_self
              have hpos : 0 < w.length := List.length_pos_iff.mpr hne
              rw [List.flatten_cons, List.length_append] at hleft
              -- the read returns the piece, or the part of it that is still missing
              have hrecv : Socket.recv (min (left + 1) env.buffSize) (w :: ws) =
                  (w.take (left + 1), skip (min (left + 1) w.length) (w :: ws)) := by
                rw [Socket.recv, skip]
                by_cases hfits : w.length ≤ left + 1
                · rw [if_pos (by omega), if_neg (by omega), List.take_of_length_le hfits,
                    Nat.min_eq_right hfits, Nat.sub_self,
                    skip_zero fun v hv => (hfit v (List.mem_cons_of_mem _ hv)).1]
                · rw [if_neg (by omega), if_pos (by omega), Nat.min_eq_left (by omega),
                    Nat.min_eq_left (by omega)]
              have hread : (Socket.read (min (left + 1) env.buffSize) :
                  Method Socket Fault Text).exec ⟨w :: ws, false⟩ =
                  (.ok (w.take (left + 1)),
                    ⟨skip (min (left + 1) w.length) (w :: ws), false⟩) := by
                rw [Socket.exec_read, hrecv]
              have hsize : (w.take (left + 1)).length = min (left + 1) w.length :=
                List.length_take
              have htake : w.take (left + 1) ≠ [] := by
                rw [← List.length_pos_iff, hsize]
                omega
              obtain ⟨data', hdata', hexec⟩ := @ih (body ++ w.take (left + 1))
                (Blocks.overwrite data 0 (w.take (left + 1)))
                (left + 1 - (w.take (left + 1)).length)
                (skip (min (left + 1) w.length) (w :: ws))
                (by rw [Blocks.length_overwrite (by omega)]; exact hdata)
                (by
                  intro u hu
                  obtain ⟨hnil, v, hv, hlen⟩ := mem_skip hu fun v hv => (hfit v hv).1
                  exact ⟨hnil, hlen.trans (hfit v hv).2⟩)
                (by
                  rw [flatten_skip, List.length_drop, List.flatten_cons, List.length_append]
                  omega)
                (by omega)
              refine ⟨data', hdata', ?_⟩
              rw [HttpConnection.readLeft, Method.exec_bind_ok hread, if_neg htake, hexec,
                flatten_skip, skip_skip, hsize, List.append_assoc]
              have hparts : w.take (left + 1) ++
                  ((w :: ws).flatten.drop (min (left + 1) w.length)).take
                    (left + 1 - min (left + 1) w.length) =
                  (w :: ws).flatten.take (left + 1) := by
                have hfront : w.take (left + 1) =
                    (w :: ws).flatten.take (min (left + 1) w.length) := by
                  rw [List.flatten_cons, List.take_append_of_le_length (Nat.min_le_right _ _)]
                  exact List.take_eq_take_iff.mpr (by omega)
                rw [hfront, ← List.take_add]
                congr 1
                omega
              rw [hparts]
              congr 3
              omega

theorem Holds.flatten (h : Holds env data len pending pieces) :
    pieces.flatten = data.take len ++ pending.flatten := by
  rw [h.eq]
  split
  · next hzero => rw [hzero, List.take_zero, List.nil_append]
  · rfl

theorem Holds.length_take (h : Holds env data len pending pieces) :
    (data.take len).length = len := by
  have hle := h.len_le
  have hlen := h.length
  rw [List.length_take]
  omega

theorem Holds.skip_pending {n : Nat} (h : Holds env data len pending pieces) (hn : len ≤ n) :
    skip n pieces = skip (n - len) pending := by
  have hlen := h.length_take
  rw [h.eq]
  split
  · next hzero => rw [hzero, Nat.sub_zero]
  · rw [skip, hlen, if_neg (Nat.not_lt_of_le hn)]

theorem Holds.fit_pending (h : Holds env data len pending pieces) :
    ∀ w ∈ pending, w ≠ [] ∧ w.length ≤ env.buffSize := by
  intro w hw
  apply h.fit w
  rw [h.eq]
  split
  · exact hw
  · exact List.mem_cons_of_mem _ hw

theorem Holds.fit_skip (h : Holds env data len pending pieces) (n : Nat) :
    ∀ w ∈ skip n pieces, w ≠ [] ∧ w.length ≤ env.buffSize := by
  intro w hw
  obtain ⟨hne, v, hv, hle⟩ := mem_skip hw fun v hv => (h.fit v hv).1
  exact ⟨hne, hle.trans (h.fit v hv).2⟩

/-- A chunk of `n` bytes and its line end are taken off the pieces, and the body
grows by the chunk. -/
theorem exec_recvChunkData {n : Nat} (hn : n + 2 < 2 ^ 31)
    (h : Holds env data len pending pieces) (henough : n + 2 ≤ pieces.flatten.length) :
    ∃ data' len' pending', Holds env data' len' pending' (skip (n + 2) pieces) ∧
      (HttpConnection.recvChunkData env n body data len).exec ⟨pending, false⟩ =
        (.ok (some (body ++ pieces.flatten.take n, data', len')), ⟨pending', false⟩) := by
  have hflat := h.flatten
  have hlen := h.length_take
  have hlength := h.length
  have hle := h.len_le
  rw [HttpConnection.recvChunkData, if_neg (by omega)]
  by_cases hbuffered : n + 2 ≤ len
  · have hpieces : pieces = data.take len :: pending := by
      rw [h.eq, if_neg (by omega)]
    have htext : textAt data 0 (n : Int) = .ok (pieces.flatten.take n) := by
      rw [textAt, if_neg (by omega), if_neg (by omega), hflat, Int.toNat_natCast, List.drop_zero,
        List.take_append_of_le_length (by omega), List.take_take, Nat.min_eq_left (by omega)]
    have hholds := Holds.advance hlength (hpieces ▸ h.fit)
      (by omega : n + 2 ≤ (data.take len).length)
    rw [← hpieces, hlen] at hholds
    refine ⟨_, _, pending, hholds, ?_⟩
    have hlift : (Method.lift (textAt data 0 (n : Int)) : Method Socket Fault Text).exec
        ⟨pending, false⟩ = (.ok (pieces.flatten.take n), ⟨pending, false⟩) := by
      rw [Method.exec_lift, htext]
    rw [if_pos (by omega), Method.exec_bind_ok hlift, Int.toNat_natCast]
    simp only [Method.exec_pure, List.length_drop, hlen]
  · have hleft : ((n : Int) - len + 2).toNat = n + 2 - len := by omega
    have hrest : n + 2 - len ≤ pending.flatten.length := by
      rw [hflat, List.length_append, hlen] at henough
      omega
    obtain ⟨data', hdata', hexec⟩ := @exec_readLeft env (body ++ data.take len) data _ _ pending
      hlength h.fit_pending hrest (Nat.le_refl _)
    have hread : pieces.flatten.take (n + 2) =
        data.take len ++ pending.flatten.take (n + 2 - len) := by
      rw [hflat, List.take_append, hlen, List.take_of_length_le (by omega)]
    have hsize : (body ++ pieces.flatten.take (n + 2)).length = body.length + (n + 2) := by
      rw [List.length_append, List.length_take, Nat.min_eq_left henough]
    refine ⟨data', 0, skip (n + 2 - len) pending, ⟨hdata', Nat.zero_le _, h.fit_skip _, ?_⟩, ?_⟩
    · rw [if_pos rfl]
      exact h.skip_pending (by omega)
    · rw [if_neg (by omega)]
      simp only [hleft]
      rw [Method.exec_bind_ok hexec, List.append_assoc, ← hread]
      simp only
      rw [if_neg (by omega), hsize]
      have hcut : (body ++ pieces.flatten.take (n + 2)).take (body.length + (n + 2) - 2) =
          body ++ pieces.flatten.take n := by
        rw [Nat.add_sub_assoc (Nat.le_add_left 2 n), Nat.add_sub_cancel, List.take_append,
          List.take_of_length_le (by omega), Nat.add_sub_cancel_left, List.take_take,
          Nat.min_eq_left (by omega)]
      rw [hcut]
      rfl

end Data

section Chunks

variable {env : ResponseEnv} {body data d c u : Text} {len rounds : Nat}
  {pending pieces : List Text} {parser : HttpResponseParser}

theorem Holds.length_le (h : Holds env data len pending pieces) :
    pieces.length ≤ pending.flatten.length + 2 := by
  have hpending : pending.length ≤ pending.flatten.length := by
    have hpos : ∀ w ∈ pending, 0 < w.length :=
      fun w hw => List.length_pos_iff.mpr (h.fit_pending w hw).1
    clear h
    induction pending with
    | nil => exact Nat.le_refl _
    | cons w ws ih =>
        have hw := hpos w List.mem_cons_self
        have htail := ih fun v hv => hpos v (List.mem_cons_of_mem _ hv)
        rw [List.flatten_cons, List.length_append, List.length_cons]
        omega
  rw [h.eq]
  split
  · omega
  · rw [List.length_cons]
    omega

/-- One turn of the loop over the chunks, when the digits read of the size line are `e`. -/
theorem exec_chunk (rounds : Nat) (body : Text) {e : Text}
    (h : Holds env data len pending pieces) (herr : parser.error = 0) (hd : IsNumeral 16 d)
    (hlt : numeral 16 0 d < 2 ^ 31 - 2) (hc : c.length = numeral 16 0 d)
    (hflat : pieces.flatten = encodeChunk (d, c) ++ u)
    (hdigits : sizeDigits d (pieces.map List.length) = some e) :
    ∃ (parser' : HttpResponseParser) (data' : Text) (len' : Nat) (pending' : List Text),
      parser'.data = parser.data ∧ parser'.error = 0 ∧
      Holds env data' len' pending' (skip (d.length + 2 + (numeral 16 0 e + 2)) pieces) ∧
      (HttpConnection.recvChunks env (rounds + 1) parser body data len).exec ⟨pending, false⟩ =
        if numeral 16 0 e = 0 then (.ok (some (parser', body)), ⟨pending', false⟩)
        else (HttpConnection.recvChunks env rounds parser' (body ++ c.take (numeral 16 0 e)) data'
          len').exec ⟨pending', false⟩ := by
  have hle := (sizeDigits_le hd hdigits).2
  have hline : pieces.flatten = d ++ 13 :: 10 :: (c ++ 13 :: 10 :: u) := by
    rw [hflat, encodeChunk]
    simp
  obtain ⟨parser', data₁, len₁, pending₁, hdata, herr', hsize, hdone, hholds₁, hexec₁⟩ :=
    recvChunkSize_some h (Or.inl rfl) herr hd (by omega) hline h.length_le hdigits
  have hrest : (skip (d.length + 2) pieces).flatten = c ++ 13 :: 10 :: u := by
    have hassoc : pieces.flatten = (d ++ [13, 10]) ++ (c ++ 13 :: 10 :: u) := by
      rw [hline]
      simp
    have hfront : (d ++ [13, 10]).length = d.length + 2 := List.length_append
    rw [flatten_skip, hassoc, ← hfront, List.drop_left]
  obtain ⟨data', len', pending', hholds, hexec⟩ := @exec_recvChunkData env body data₁ len₁
    pending₁ _ (numeral 16 0 e) (by omega) hholds₁ (by
      rw [hrest, List.length_append, List.length_cons, List.length_cons]
      omega)
  rw [skip_skip] at hholds
  refine ⟨parser', data', len', pending', hdata, herr', hholds, ?_⟩
  have htext : (skip (d.length + 2) pieces).flatten.take (numeral 16 0 e) =
      c.take (numeral 16 0 e) := by
    rw [hrest, List.take_append_of_le_length (by omega)]
  rw [htext, ← hsize] at hexec
  rw [HttpConnection.recvChunks, Method.exec_bind_ok (Method.exec_get _),
    Method.exec_bind_ok hexec₁]
  simp only
  rw [Method.exec_bind_ok hexec]
  simp only [hdone, decide_eq_true_eq]
  split
  · next hzero => rw [hzero, List.take_zero, List.append_nil, Method.exec_pure]
  · rfl

theorem exec_chunk_none
    (hsize : ((HttpConnection.recvChunkSize env (pending.flatten.length + 2) parser data len
      true).exec ⟨pending, false⟩).1 = .ok none) :
    ((HttpConnection.recvChunks env (rounds + 1) parser body data len).exec
      ⟨pending, false⟩).1 = .ok none := by
  rw [HttpConnection.recvChunks, Method.exec_bind_ok (Method.exec_get _),
    Method.exec_bind_of_fst hsize]
  rfl

theorem length_encodeChunk {g : Text × Text} (hg : g.2.length = numeral 16 0 g.1) :
    (encodeChunk g).length = g.1.length + 2 + (numeral 16 0 g.1 + 2) := by
  rw [encodeChunk]
  simp only [List.length_append, List.length_cons, List.length_nil, hg]
  omega

/-- A chunk whose data has the size that its line says. -/
structure WellSized (f : Text × Text) : Prop where
  isNumeral : IsNumeral 16 f.1
  pos : 0 < numeral 16 0 f.1
  lt : numeral 16 0 f.1 < 2 ^ 31 - 2
  length : f.2.length = numeral 16 0 f.1

/-- Where every size is read as it was sent, the body is the data of the chunks. -/
theorem recvChunks_sizesRead {fs : List (Text × Text)} {last : Text}
    (hfs : ∀ f ∈ fs, WellSized f) (hlast : IsNumeral 16 last ∧ numeral 16 0 last = 0)
    (h : Holds env data len pending pieces) (herr : parser.error = 0)
    (hflat : pieces.flatten = encodeChunks (fs ++ [(last, [])]))
    (hsizes : SizesRead (fs.map Prod.fst ++ [last]) (pieces.map List.length))
    (hrounds : fs.length < rounds) :
    ∃ parser', parser'.data = parser.data ∧
      ((HttpConnection.recvChunks env rounds parser body data len).exec ⟨pending, false⟩).1 =
        .ok (some (parser', body ++ (fs.map Prod.snd).flatten)) := by
  induction fs generalizing parser body data len pending pieces rounds with
  | nil =>
      obtain ⟨rounds, rfl⟩ : ∃ k, rounds = k + 1 := Nat.exists_eq_add_of_le' hrounds
      obtain ⟨⟨e, he, hvalue⟩, -⟩ := hsizes
      have hflat' : pieces.flatten = encodeChunk (last, []) ++ [] := hflat
      obtain ⟨parser', data', len', pending', hdata, -, -, hexec⟩ :=
        exec_chunk rounds body h herr hlast.1 (by omega)
          (List.length_nil.trans hlast.2.symm) hflat' he
      refine ⟨parser', hdata, ?_⟩
      rw [hexec, if_pos (hvalue.trans hlast.2)]
      simp
  | cons f fs ih =>
      obtain ⟨rounds, rfl⟩ := Nat.exists_eq_add_of_le' ((Nat.succ_pos _).trans_le hrounds.le)
      obtain ⟨hd, hpos, hlt, hc⟩ := hfs f List.mem_cons_self
      obtain ⟨⟨e, he, hvalue⟩, hrest⟩ := hsizes
      have hflat' : pieces.flatten = encodeChunk (f.1, f.2) ++ encodeChunks (fs ++ [(last, [])]) :=
        hflat
      obtain ⟨parser', data', len', pending', hdata, herr', hholds, hexec⟩ :=
        exec_chunk rounds body h herr hd hlt hc hflat' he
      rw [hvalue] at hholds hexec
      obtain ⟨parser'', hdata', hexec'⟩ := @ih (body ++ f.2) data' len' rounds pending' _ parser'
        (fun g hg => hfs g (List.mem_cons_of_mem _ hg)) hholds herr'
        (by rw [flatten_skip, hflat', ← length_encodeChunk hc, List.drop_left])
        (by rw [map_length_skip]; exact hrest) (Nat.lt_of_succ_lt_succ hrounds)
      refine ⟨parser'', hdata'.trans hdata, ?_⟩
      rw [hexec, if_neg (Nat.pos_iff_ne_zero.mp hpos), List.take_of_length_le hc.le, hexec']
      simp

/-- The first bytes behind a chunk that is cut short. -/
theorem drop_chunk {v n : Nat} (hn : n < v) (u : Text) :
    ∃ b t, (List.replicate v 122 ++ 13 :: 10 :: u).drop (n + 2) = b :: t ∧
      (b = 13 ∨ b = 10 ∨ b = 122) := by
  obtain hlt | heq | hgt : n + 2 < v ∨ n + 2 = v ∨ n + 2 = v + 1 := by omega
  · refine ⟨122, List.replicate (v - (n + 3)) 122 ++ 13 :: 10 :: u, ?_, Or.inr (Or.inr rfl)⟩
    obtain ⟨k, rfl⟩ := Nat.exists_eq_add_of_lt hlt
    rw [List.drop_append_of_le_length (by simp; omega), List.drop_replicate]
    have hleft : n + 2 + k + 1 - (n + 2) = k + 1 := by omega
    have hright : n + 2 + k + 1 - (n + 3) = k := by omega
    rw [hleft, hright]
    rfl
  · refine ⟨13, 10 :: u, ?_, Or.inl rfl⟩
    rw [heq, List.drop_append_of_le_length (by simp), List.drop_eq_nil_of_le (by simp)]
    rfl
  · refine ⟨10, u, ?_, Or.inr (Or.inl rfl)⟩
    rw [hgt, List.drop_append, List.drop_eq_nil_of_le (by simp)]
    simp

/-- Where a size is not read as it was sent, data of letters that are no digits is
not returned. -/
theorem recvChunks_not_sizesRead {fs : List (Text × Text)} {last : Text}
    (hfs : ∀ f ∈ fs, WellSized f) (hletters : ∀ f ∈ fs, f.2 = List.replicate f.2.length 122)
    (hlast : IsNumeral 16 last ∧ numeral 16 0 last = 0)
    (h : Holds env data len pending pieces) (herr : parser.error = 0)
    (hflat : pieces.flatten = encodeChunks (fs ++ [(last, [])]))
    (hsizes : ¬ SizesRead (fs.map Prod.fst ++ [last]) (pieces.map List.length))
    (hrounds : fs.length < rounds) :
    ((HttpConnection.recvChunks env rounds parser body data len).exec ⟨pending, false⟩).1 =
        .ok none ∨
      ∃ parser' body', parser'.data = parser.data ∧
        ((HttpConnection.recvChunks env rounds parser body data len).exec
          ⟨pending, false⟩).1 = .ok (some (parser', body')) ∧
        body'.length < body.length + (fs.map Prod.snd).flatten.length := by
  induction fs generalizing parser body data len pending pieces rounds with
  | nil =>
      obtain ⟨rounds, rfl⟩ : ∃ k, rounds = k + 1 := Nat.exists_eq_add_of_le' hrounds
      have hline : pieces.flatten = last ++ 13 :: 10 :: [13, 10] := by
        rw [hflat]
        simp [encodeChunks, encodeChunk]
      left
      cases hdigits : sizeDigits last (pieces.map List.length) with
      | none => exact exec_chunk_none (recvChunkSize_none h (Or.inl rfl) herr hlast.1 hline
          h.length_le hdigits)
      | some e =>
          have hle := (sizeDigits_le hlast.1 hdigits).2
          exact absurd ⟨⟨e, hdigits, by omega⟩, trivial⟩ hsizes
  | cons f fs ih =>
      obtain ⟨rounds, rfl⟩ := Nat.exists_eq_add_of_le' ((Nat.succ_pos _).trans_le hrounds.le)
      have hrounds' : fs.length < rounds := Nat.lt_of_succ_lt_succ hrounds
      obtain ⟨hd, hpos, hlt, hc⟩ := hfs f List.mem_cons_self
      have hflat' : pieces.flatten = encodeChunk (f.1, f.2) ++ encodeChunks (fs ++ [(last, [])]) :=
        hflat
      have hline : pieces.flatten = f.1 ++ 13 :: 10 ::
          (f.2 ++ 13 :: 10 :: encodeChunks (fs ++ [(last, [])])) := by
        rw [hflat', encodeChunk]
        simp
      cases hdigits : sizeDigits f.1 (pieces.map List.length) with
      | none =>
          left
          exact exec_chunk_none (recvChunkSize_none h (Or.inl rfl) herr hd hline h.length_le
            hdigits)
      | some e =>
          have hle := (sizeDigits_le hd hdigits).2
          obtain ⟨parser', data', len', pending', hdata, herr', hholds, hexec⟩ :=
            exec_chunk rounds body h herr hd hlt hc hflat' hdigits
          rw [hexec]
          obtain hsame | hless := hle.eq_or_lt
          · -- this size is read, so a later one is not
            rw [hsame] at hholds ⊢
            rw [if_neg (Nat.pos_iff_ne_zero.mp hpos), List.take_of_length_le hc.le]
            have hrest : ¬ SizesRead (fs.map Prod.fst ++ [last])
                ((skip (f.1.length + 2 + (numeral 16 0 f.1 + 2)) pieces).map List.length) := by
              rw [map_length_skip]
              exact fun hread => hsizes ⟨⟨e, hdigits, hsame⟩, hread⟩
            obtain hnone | ⟨parser'', body', hdata', hsome, hshort⟩ := @ih (body ++ f.2) data' len'
              rounds pending' _ parser' (fun g hg => hfs g (List.mem_cons_of_mem _ hg))
              (fun g hg => hletters g (List.mem_cons_of_mem _ hg)) hholds herr'
              (by rw [flatten_skip, hflat', ← length_encodeChunk hc, List.drop_left]) hrest hrounds'
            · exact Or.inl hnone
            · refine Or.inr ⟨parser'', body', hdata'.trans hdata, hsome, ?_⟩
              rw [List.length_append] at hshort
              rw [List.map_cons, List.flatten_cons, List.length_append]
              omega
          · split
            · refine Or.inr ⟨parser', body, hdata, rfl, ?_⟩
              rw [List.map_cons, List.flatten_cons, List.length_append]
              omega
            · -- the next size line is looked for inside the data or its line end
              left
              obtain ⟨rounds, rfl⟩ := Nat.exists_eq_add_of_le' ((Nat.zero_le _).trans_lt hrounds')
              obtain ⟨b, t, hdrop, hb⟩ := drop_chunk hless (encodeChunks (fs ++ [(last, [])]))
              refine exec_chunk_none (recvChunkSize_bad hholds (Or.inl rfl) hb (?_ : _ = b :: t))
              have hassoc : pieces.flatten = (f.1 ++ [13, 10]) ++
                  (f.2 ++ 13 :: 10 :: encodeChunks (fs ++ [(last, [])])) := by
                rw [hline]
                simp
              have hfront : (f.1 ++ [13, 10]).length = f.1.length + 2 := List.length_append
              rw [flatten_skip, ← List.drop_drop, hassoc, ← hfront, List.drop_left,
                hletters f List.mem_cons_self, hc]
              exact hdrop

end Chunks

end Sylar.Http
