/-
The buffer under `rio_readlineb` (`webserver/common.c`): the count that is also the error indicator, the pointer into
the internal buffer, and the stores into the caller's array.

`Client` has a `struct rio` as the list of its unread bytes and a line as the list of its bytes. Here both are as in the
code, and `rioReadb_unread` and `rioReadlineb_refines` connect the two. The length of a line is an `int` under a bound
of type `size_t`, so a line of 2^31 bytes overflows it (`readline_cuts`); the 0 behind a line has no room of its own, so
a line of `maxlen` bytes is terminated one byte behind the array (`readline_stores`).

Not modelled: errors of `read` other than `EINTR`.
-/
import Mathlib.Tactic
import OsLab.Lib.Run
import OsLab.Lib.Text
import OsLab.Lib.Bytes
import OsLab.Server.Client

namespace OsLab.Server.Lines

open OsLab.Lib
open OsLab.Server.Client (Read bytesOf Whole)

inductive Stop where
  /-- an `int` overflows -/
  | overflow
  /-- the bound on the turns of a loop is reached -/
  | hang
deriving DecidableEq, Repr

/-- the `n` bytes at `o` -/
def slice (m : Mem) (o n : ℕ) : List UInt8 := (List.range n).map fun i => m (o + i)

/-! ## The internal buffer -/

def rioBufsize : ℕ := 8192

structure Rio where
  rioCnt : ℤ
  /-- `rio_bufptr - rio_buf` -/
  rioBufptr : ℕ
  rioBuf : Mem
  /-- what the calls of `read` to come give -/
  reads : List Read

def rioInit (junk : Mem) (reads : List Read) : Rio := ⟨0, 0, junk, reads⟩

/-- the loop that refills the buffer, and whether it is left at its condition (`false`: `return 0`) -/
def refill (rp : Rio) : List Read → Rio × Bool
  | [] => ({ rp with rioCnt := 0, reads := [] }, false)
  | .interrupted :: reads => refill { rp with rioCnt := -1 } reads
  | .data bytes :: reads =>
    let rioBuf : Mem := fun i => if i < bytes.length then bytes.getD i 0 else rp.rioBuf i
    if bytes.length = 0 then ({ rp with rioCnt := 0, reads := reads }, false)
    else (⟨bytes.length, 0, rioBuf, reads⟩, true)

/-- the bytes copied to `usrbuf`; `rio_readb` returns how many there are -/
def rioReadb (rp : Rio) (n : ℕ) : Rio × List UInt8 :=
  match if rp.rioCnt ≤ 0 then refill rp rp.reads else (rp, true) with
  | (rp, false) => (rp, [])
  | (rp, true) =>
    let cnt := min n rp.rioCnt.toNat
    ({ rp with rioBufptr := rp.rioBufptr + cnt, rioCnt := rp.rioCnt - cnt }, slice rp.rioBuf rp.rioBufptr cnt)

/-! ## The caller's array -/

structure Usrbuf where
  bytes : Mem
  /-- where something has been stored -/
  stores : List ℕ

/-- `usrbuf[i] = c` -/
def Usrbuf.store (buf : Usrbuf) (i : ℕ) (c : UInt8) : Usrbuf :=
  ⟨fun j => if j = i then c else buf.bytes j, i :: buf.stores⟩

/-- what `rio_readlineb` returns and leaves -/
structure Line where
  ret : ℤ
  rp : Rio
  buf : Usrbuf

/-- `n++` -/
def increment (n : ℕ) : Except Stop ℕ := if n < 2147483647 then .ok (n + 1) else .error .overflow

/-- the loop and what follows it; `bufp` is an offset into `usrbuf` -/
def readlineLoop (maxlen : ℕ) : ℕ → Rio → ℕ → ℕ → Usrbuf → Except Stop Line
  | 0, _, _, _, _ => .error .hang
  | turns + 1, rp, n, bufp, buf =>
    if n < maxlen then
      let (rp, bytes) := rioReadb rp 1
      match bytes with
      | c :: _ =>
        let buf := buf.store bufp c
        let bufp := bufp + 1
        if c = 10 then do
          let n ← increment n
          .ok ⟨n, rp, buf.store bufp 0⟩
        else do
          let n ← increment n
          readlineLoop maxlen turns rp n bufp buf
      | [] => if n = 0 then .ok ⟨0, rp, buf⟩ else .ok ⟨n, rp, buf.store bufp 0⟩
    else .ok ⟨n, rp, buf.store bufp 0⟩

/-- `usrbuf` is what is in the array before the call -/
def rioReadlineb (rp : Rio) (usrbuf : Mem) (maxlen : ℕ) : Except Stop Line :=
  readlineLoop maxlen ((bytesOf rp.reads).length + rp.rioCnt.toNat + 1) rp 0 0 ⟨usrbuf, []⟩

/-! ## Reading a byte -/

theorem slice_length (m : Mem) (o n : ℕ) : (slice m o n).length = n := by simp [slice]

theorem slice_take (m : Mem) (o k n : ℕ) : (slice m o n).take k = slice m o (min k n) := by
  simp [slice, ← List.map_take, List.take_range]

theorem slice_drop (m : Mem) (o k n : ℕ) : (slice m o n).drop k = slice m (o + min k n) (n - min k n) := by
  refine List.ext_getElem (by simp [slice]; omega) fun i hi _ => ?_
  have hk : min k n = k := by
    simp [slice] at hi
    omega
  simp [slice, hk, Nat.add_assoc]

/-- the `rio_cnt` bytes at `rio_bufptr` -/
def Rio.unread (rp : Rio) : List UInt8 := slice rp.rioBuf rp.rioBufptr rp.rioCnt.toNat

/-- a `struct rio` by what is unread -/
def Rio.client (rp : Rio) : Client.Rio := ⟨rp.unread, rp.reads⟩

def Rio.rest (rp : Rio) : List UInt8 := rp.client.rest

theorem Rio.unread_eq_nil {rp : Rio} : rp.unread = [] ↔ rp.rioCnt ≤ 0 := by
  rw [← List.length_eq_zero_iff, Rio.unread, slice_length, Int.toNat_eq_zero]

theorem refill_client (rp : Rio) (reads : List Read) :
    (refill rp reads).1.client = Client.refill reads ∧
      ((refill rp reads).2 = false ↔ (Client.refill reads).unread = []) := by
  induction reads generalizing rp with
  | nil => exact ⟨by simp [refill, Client.refill, Rio.client, Rio.unread, slice], by simp [refill, Client.refill]⟩
  | cons x reads ih =>
    cases x with
    | interrupted => exact ih _
    | data bytes =>
      by_cases hbytes : bytes = []
      · subst hbytes
        exact ⟨by simp [refill, Client.refill, Rio.client, Rio.unread, slice], by simp [refill, Client.refill]⟩
      · have hlen : bytes.length ≠ 0 := fun h => hbytes (List.length_eq_zero_iff.1 h)
        have hcopied : slice (fun i => if i < bytes.length then bytes.getD i 0 else rp.rioBuf i) 0
            bytes.length = bytes := by
          refine List.ext_getElem (slice_length _ _ _) fun i hi hi' => ?_
          simp [slice, hi']
        simp only [refill, Client.refill, Rio.client, Rio.unread, if_neg hlen, hbytes, Int.toNat_natCast, hcopied]
        simp

/-- `rio_readb` gives the next unread bytes -/
theorem rioReadb_unread (rp : Rio) (n : ℕ) :
    ((rioReadb rp n).1.client, (rioReadb rp n).2) = Client.rioReadb rp.client n := by
  have hcopy : ∀ q : Rio,
      ((⟨q.rioCnt - (min n q.rioCnt.toNat : ℕ), q.rioBufptr + min n q.rioCnt.toNat, q.rioBuf, q.reads⟩ : Rio).client,
        slice q.rioBuf q.rioBufptr (min n q.rioCnt.toNat)) = ((⟨q.unread.drop n, q.reads⟩ : Client.Rio),
        q.unread.take n) := by
    intro q
    have hcnt : (q.rioCnt - (min n q.rioCnt.toNat : ℕ)).toNat = q.rioCnt.toNat - min n q.rioCnt.toNat := by omega
    rw [Rio.unread, slice_take, slice_drop, Rio.client, Rio.unread, hcnt]
  unfold rioReadb Client.rioReadb
  by_cases hcnt : rp.rioCnt ≤ 0
  · obtain ⟨hrefill, hend⟩ := refill_client rp rp.reads
    have hempty : rp.client.unread = [] := Rio.unread_eq_nil.2 hcnt
    rw [if_pos hcnt, if_pos hempty]
    change _ = ((⟨(Client.refill rp.reads).unread.drop n, (Client.refill rp.reads).reads⟩ : Client.Rio),
      (Client.refill rp.reads).unread.take n)
    cases hr : refill rp rp.reads with
    | mk q more =>
      rw [hr] at hrefill hend
      cases more with
      | false =>
        have hnil := hend.1 rfl
        dsimp only at hrefill ⊢
        rw [hrefill, hnil, List.drop_nil, List.take_nil, ← hnil]
      | true =>
        dsimp only at hrefill ⊢
        rw [← hrefill]
        exact hcopy q
  · have hunread : rp.client.unread ≠ [] := fun h => hcnt (Rio.unread_eq_nil.1 h)
    rw [if_neg hcnt, if_neg hunread]
    exact hcopy rp

/-- one byte is read, unless there are none -/
theorem rioReadb_one {rp : Rio} (h : Whole rp.reads) :
    ∃ rq, rioReadb rp 1 = (rq, rp.rest.take 1) ∧ Whole rq.reads ∧ rq.rest = rp.rest.drop 1 := by
  have hc : Whole rp.client.reads := h
  obtain ⟨hwhole, hbyte, hleft⟩ := Client.rioReadb_one hc
  rw [← rioReadb_unread rp 1] at hwhole hbyte hleft
  exact ⟨(rioReadb rp 1).1, Prod.ext rfl hbyte, hwhole, hleft⟩

/-! ## Reading a line -/

/-- `line` stored from `n` on -/
def Usrbuf.put (buf : Usrbuf) (n : ℕ) : List UInt8 → Usrbuf
  | [] => buf
  | c :: line => (buf.store n c).put (n + 1) line

/-- and the 0 behind it, unless nothing has been read -/
def Usrbuf.close (buf : Usrbuf) (n : ℕ) (line : List UInt8) : Usrbuf :=
  if n + line.length = 0 then buf else (buf.put n line).store (n + line.length) 0

section

variable {maxlen m n turns : ℕ} {rp : Rio}

theorem increment_eq {k : ℕ} (h : n + k + 1 < 2147483648) : increment n = .ok (n + 1) := if_pos (by omega)

/-- **The loop reads the first line** of the bytes still to be read, unless the line is too long for an `int`. -/
theorem readlineLoop_spec (buf : Usrbuf) (hmax : n + m = maxlen) (hpos : 0 < maxlen) (h : Whole rp.reads)
    (hturns : rp.rest.length < turns) (hline : n + (cutLine m rp.rest).length < 2147483648) :
    ∃ rq, readlineLoop maxlen turns rp n n buf =
        .ok ⟨(n + (cutLine m rp.rest).length : ℕ), rq, buf.close n (cutLine m rp.rest)⟩ ∧
      Whole rq.reads ∧ rq.rest = rp.rest.drop (cutLine m rp.rest).length := by
  induction turns generalizing m n rp buf with
  | zero => omega
  | succ turns ih =>
    cases m with
    | zero =>
      -- the array is full
      have hfull : n ≠ 0 := by omega
      rw [readlineLoop, if_neg (by omega)]
      exact ⟨rp, by simp [cutLine, Usrbuf.close, Usrbuf.put, hfull], h, by simp [cutLine]⟩
    | succ m =>
      obtain ⟨rq, hread, hwhole, hleft⟩ := rioReadb_one h
      rw [readlineLoop, if_pos (by omega), hread]
      cases htext : rp.rest with
      | nil =>
        rw [htext] at hleft
        refine ⟨rq, ?_, hwhole, by simpa [cutLine] using hleft⟩
        by_cases hn : n = 0 <;> simp [cutLine, Usrbuf.close, Usrbuf.put, hn]
      | cons c text =>
        rw [htext] at hleft hline hturns
        simp only [List.drop_succ_cons, List.drop_zero] at hleft
        simp only [List.take_succ_cons, List.take_zero, cutLine]
        by_cases hc : c = 10
        · rw [if_pos hc, if_pos hc, increment_eq (k := 0) (by simp [cutLine, hc] at hline; omega), ok_bind]
          exact ⟨rq, by simp [Usrbuf.close, Usrbuf.put], hwhole, by simpa using hleft⟩
        · simp only [cutLine, if_neg hc, List.length_cons] at hline
          simp only [List.length_cons] at hturns
          rw [if_neg hc, if_neg hc, increment_eq (k := (cutLine m text).length) (by omega), ok_bind]
          rw [← hleft] at hline hturns ⊢
          obtain ⟨rr, hloop, hw, hrest⟩ := ih (m := m) (n := n + 1) (buf.store n c) (by omega) hwhole
            (by omega) (by omega)
          refine ⟨rr, ?_, hw, by simpa using hrest⟩
          have hlen : n + (c :: cutLine m rq.rest).length = n + 1 + (cutLine m rq.rest).length := by
            rw [List.length_cons]
            omega
          have hclose : buf.close n (c :: cutLine m rq.rest) = (buf.store n c).close (n + 1) (cutLine m rq.rest) := by
            rw [Usrbuf.close, Usrbuf.close, hlen, if_neg (by omega), if_neg (by omega)]
            rfl
          rw [hloop, hclose, hlen]

/-- a line that is too long for an `int` -/
theorem readlineLoop_overflow (buf : Usrbuf) (hmax : n + m = maxlen) (h : Whole rp.reads)
    (hturns : rp.rest.length < turns) (hn : n < 2147483648) (hline : 2147483648 ≤ n + (cutLine m rp.rest).length) :
    readlineLoop maxlen turns rp n n buf = .error .overflow := by
  induction turns generalizing m n rp buf with
  | zero => omega
  | succ turns ih =>
    cases m with
    | zero => simp [cutLine] at hline; omega
    | succ m =>
      obtain ⟨rq, hread, hwhole, hleft⟩ := rioReadb_one h
      rw [readlineLoop, if_pos (by omega), hread]
      cases htext : rp.rest with
      | nil => simp [htext, cutLine] at hline; omega
      | cons c text =>
        rw [htext] at hleft hline hturns
        simp only [List.drop_succ_cons, List.drop_zero] at hleft
        simp only [List.take_succ_cons, List.take_zero]
        by_cases hlast : n = 2147483647
        · -- the byte is stored, and `n++` overflows
          have hinc : increment n = .error .overflow := if_neg (by omega)
          by_cases hc : c = 10 <;> simp [hc, hinc]
        · have hc : c ≠ 10 := fun hc => by simp [cutLine, hc] at hline; omega
          simp only [cutLine, if_neg hc, List.length_cons] at hline
          simp only [List.length_cons] at hturns
          rw [if_neg hc, increment_eq (k := 0) (by omega), ok_bind]
          rw [← hleft] at hline hturns
          exact ih (m := m) _ (by omega) hwhole (by omega) (by omega) (by omega)

end

/-- **One call** reads the first line of the bytes still to be read and ends it with a 0. -/
theorem rioReadlineb_spec {maxlen : ℕ} {rp : Rio} (usrbuf : Mem) (hpos : 0 < maxlen) (h : Whole rp.reads)
    (hline : (cutLine maxlen rp.rest).length < 2147483648) :
    ∃ rq, rioReadlineb rp usrbuf maxlen =
        .ok ⟨(cutLine maxlen rp.rest).length, rq, (⟨usrbuf, []⟩ : Usrbuf).close 0 (cutLine maxlen rp.rest)⟩ ∧
      Whole rq.reads ∧ rq.rest = rp.rest.drop (cutLine maxlen rp.rest).length := by
  have hrest : rp.rest.length = rp.rioCnt.toNat + (bytesOf rp.reads).length := by
    change (rp.unread ++ bytesOf rp.reads).length = _
    rw [List.length_append, Rio.unread, slice_length]
  obtain ⟨rq, hloop, hwhole, hleft⟩ := readlineLoop_spec (n := 0) (m := maxlen) ⟨usrbuf, []⟩ (by omega) hpos h
    (show _ < (bytesOf rp.reads).length + rp.rioCnt.toNat + 1 by omega) (by omega)
  exact ⟨rq, by rw [rioReadlineb, hloop, Nat.zero_add], hwhole, hleft⟩

theorem rioReadlineb_overflow {maxlen : ℕ} {rp : Rio} (usrbuf : Mem) (h : Whole rp.reads)
    (hline : 2147483648 ≤ (cutLine maxlen rp.rest).length) : rioReadlineb rp usrbuf maxlen = .error .overflow := by
  have hrest : rp.rest.length = rp.rioCnt.toNat + (bytesOf rp.reads).length := by
    change (rp.unread ++ bytesOf rp.reads).length = _
    rw [List.length_append, Rio.unread, slice_length]
  exact readlineLoop_overflow (m := maxlen) _ (by omega) h (by omega) (by omega) (by omega)

theorem Usrbuf.put_below (buf : Usrbuf) (n : ℕ) (line : List UInt8) {i : ℕ} (hi : i < n) :
    (buf.put n line).bytes i = buf.bytes i := by
  induction line generalizing buf n with
  | nil => rfl
  | cons c line ih =>
    rw [Usrbuf.put, ih _ _ (by omega)]
    exact if_neg (by omega)

theorem Usrbuf.put_bytes (buf : Usrbuf) (n : ℕ) (line : List UInt8) :
    slice (buf.put n line).bytes n line.length = line := by
  induction line generalizing buf n with
  | nil => rfl
  | cons c line ih =>
    have hhead : (buf.put n (c :: line)).bytes n = c := by
      rw [Usrbuf.put, Usrbuf.put_below _ _ _ (Nat.lt_succ_self n)]
      exact if_pos rfl
    have htail : slice (buf.put n (c :: line)).bytes (n + 1) line.length = line := ih _ _
    rw [List.length_cons, slice, List.range_succ_eq_map, List.map_cons, Nat.add_zero, hhead, List.map_map]
    refine congrArg (c :: ·) (Eq.trans ?_ htail)
    exact List.map_congr_left fun i _ => congrArg _ (show n + (i + 1) = n + 1 + i by omega)

theorem Usrbuf.put_stores (buf : Usrbuf) (n : ℕ) (line : List UInt8) {i : ℕ} :
    i ∈ (buf.put n line).stores ↔ i ∈ buf.stores ∨ n ≤ i ∧ i < n + line.length := by
  induction line generalizing buf n with
  | nil => simp [Usrbuf.put]
  | cons c line ih =>
    have hstore : i ∈ (buf.store n c).stores ↔ i = n ∨ i ∈ buf.stores := List.mem_cons
    rw [Usrbuf.put, ih, hstore, List.length_cons]
    constructor
    · rintro ((rfl | hi) | hi)
      · exact Or.inr ⟨le_refl i, by omega⟩
      · exact Or.inl hi
      · exact Or.inr (by omega)
    · rintro (hi | hi)
      · exact Or.inl (Or.inr hi)
      · by_cases hn : i = n
        · exact Or.inl (Or.inl hn)
        · exact Or.inr (by omega)

/-- the line is in the array -/
theorem close_bytes (usrbuf : Mem) (line : List UInt8) :
    slice ((⟨usrbuf, []⟩ : Usrbuf).close 0 line).bytes 0 line.length = line := by
  cases line with
  | nil => rfl
  | cons c line =>
    refine Eq.trans (List.map_congr_left fun i hi => ?_) (Usrbuf.put_bytes ⟨usrbuf, []⟩ 0 (c :: line))
    have hlt : 0 + i ≠ 0 + (c :: line).length := by
      have := List.mem_range.1 hi
      omega
    exact if_neg hlt

/-- the 0 is behind it -/
theorem close_stores {usrbuf : Mem} {line : List UInt8} {i : ℕ} :
    i ∈ ((⟨usrbuf, []⟩ : Usrbuf).close 0 line).stores ↔ line ≠ [] ∧ i ≤ line.length := by
  cases line with
  | nil => simp [Usrbuf.close]
  | cons c line =>
    have hmem : i ∈ ((⟨usrbuf, []⟩ : Usrbuf).close 0 (c :: line)).stores ↔
        i = 0 + (c :: line).length ∨ i ∈ ((⟨usrbuf, []⟩ : Usrbuf).put 0 (c :: line)).stores := List.mem_cons
    rw [hmem, Usrbuf.put_stores]
    simp only [List.not_mem_nil, false_or, ne_eq, reduceCtorEq, not_false_eq_true, true_and]
    omega

/-- `rio_readlineb` of `Client`, for a line that an `int` can count -/
theorem rioReadlineb_refines {maxlen : ℕ} {rp : Rio} (usrbuf : Mem) (hpos : 0 < maxlen) (hmax : maxlen < 2147483648)
    (h : Whole rp.reads) :
    ∃ r, rioReadlineb rp usrbuf maxlen = .ok r ∧
      slice r.buf.bytes 0 r.ret.toNat = (Client.rioReadlineb rp.client maxlen).2 ∧
      r.rp.rest = (Client.rioReadlineb rp.client maxlen).1.rest := by
  have hlen := cutLine_length_le maxlen rp.rest
  obtain ⟨rq, hcall, -, hleft⟩ := rioReadlineb_spec usrbuf hpos h (by omega)
  obtain ⟨-, hline, hrest⟩ := Client.rioReadlineb_spec maxlen (show Whole rp.client.reads from h)
  exact ⟨_, hcall, by rw [hline]; exact close_bytes usrbuf _, by rw [hrest]; exact hleft⟩

/-! ## Successive calls -/

/-- what `n` successive calls return and put into their arrays; `bufs` is what is in these before -/
def calls (maxlen : ℕ) : List Mem → Rio → Except Stop (List (ℤ × List UInt8))
  | [], _ => .ok []
  | usrbuf :: bufs, rp => do
    let r ← rioReadlineb rp usrbuf maxlen
    let results ← calls maxlen bufs r.rp
    .ok ((r.ret, slice r.buf.bytes 0 r.ret.toNat) :: results)

/-- the first `k` pieces with their lengths, and 0 from the end of the text on -/
def pieces (maxlen k : ℕ) (text : List UInt8) : List (ℤ × List UInt8) :=
  (List.range k).map fun j => (((cutLines maxlen text).getD j []).length, (cutLines maxlen text).getD j [])

/-- `read` returns up to `RIO_BUFSIZE` bytes, and none only at the end of the file -/
def Deliverable (reads : List Read) : Prop :=
  ∀ bytes, .data bytes ∈ reads → 1 ≤ bytes.length ∧ bytes.length ≤ rioBufsize

theorem Deliverable.whole {reads : List Read} (h : Deliverable reads) : Whole reads := fun hmem => by
  have := (h [] hmem).1
  simp at this

theorem rioInit_rest (junk : Mem) (reads : List Read) : (rioInit junk reads).rest = bytesOf reads := rfl

/-- the first piece and those after it -/
theorem pieces_succ {maxlen : ℕ} (hpos : 0 < maxlen) (k : ℕ) (text : List UInt8) :
    pieces maxlen (k + 1) text = (((cutLine maxlen text).length : ℤ), cutLine maxlen text) ::
      pieces maxlen k (text.drop (cutLine maxlen text).length) := by
  have hnext : ∀ j, (cutLines maxlen text).getD (j + 1) [] =
      (cutLines maxlen (text.drop (cutLine maxlen text).length)).getD j [] := by
    intro j
    by_cases htext : text = []
    · rw [htext, List.drop_nil, cutLines_nil, List.getD_nil, List.getD_nil]
    · rw [cutLines_of_ne_nil hpos htext, List.getD_cons_succ]
  have hhead : (cutLines maxlen text).getD 0 [] = cutLine maxlen text := by
    by_cases htext : text = []
    · rw [htext, cutLines_nil, List.getD_nil]
      cases maxlen <;> rfl
    · rw [cutLines_of_ne_nil hpos htext, List.getD_cons_zero]
  rw [pieces, List.range_succ_eq_map, List.map_cons, List.map_map, hhead]
  refine congrArg (_ :: ·) (List.map_congr_left fun j _ => ?_)
  change ((((cutLines maxlen text).getD (j + 1) []).length : ℤ), (cutLines maxlen text).getD (j + 1) []) = _
  rw [hnext j]

section

variable {maxlen : ℕ} {rp : Rio}

theorem calls_spec (bufs : List Mem) (hpos : 0 < maxlen) (h : Whole rp.reads)
    (hlines : ∀ line ∈ cutLines maxlen rp.rest, line.length < 2147483648) :
    calls maxlen bufs rp = .ok (pieces maxlen bufs.length rp.rest) := by
  induction bufs generalizing rp with
  | nil => rfl
  | cons usrbuf bufs ih =>
    have hfirst : (cutLine maxlen rp.rest).length < 2147483648 ∧
        ∀ line ∈ cutLines maxlen (rp.rest.drop (cutLine maxlen rp.rest).length), line.length < 2147483648 := by
      by_cases hrest : rp.rest = []
      · rw [hrest]
        cases maxlen <;> simp [cutLine]
      · rw [cutLines_of_ne_nil hpos hrest] at hlines
        exact ⟨hlines _ List.mem_cons_self, fun line hmem => hlines line (List.mem_cons_of_mem _ hmem)⟩
    obtain ⟨rq, hcall, hwhole, hleft⟩ := rioReadlineb_spec usrbuf hpos h hfirst.1
    rw [calls, hcall, ok_bind, ih hwhole (by rw [hleft]; exact hfirst.2), ok_bind, hleft, List.length_cons,
      pieces_succ hpos, Int.toNat_natCast, close_bytes]

/-- the first line that is too long for an `int` stops the calls -/
theorem calls_overflow (hpos : 0 < maxlen) (h : Whole rp.reads) {line : List UInt8}
    (hmem : line ∈ cutLines maxlen rp.rest) (hline : 2147483648 ≤ line.length) :
    ∃ bufs, calls maxlen bufs rp = .error .overflow := by
  induction hlines : cutLines maxlen rp.rest generalizing rp with
  | nil => rw [hlines] at hmem; cases hmem
  | cons first lines ih =>
    have hrest : rp.rest ≠ [] := fun hrest => by rw [hrest] at hlines; cases hlines
    rw [cutLines_of_ne_nil hpos hrest] at hlines
    obtain ⟨hfirst, hlater⟩ := List.cons.inj hlines
    by_cases hlen : (cutLine maxlen rp.rest).length < 2147483648
    · obtain ⟨rq, hcall, hwhole, hleft⟩ := rioReadlineb_spec zeroMem hpos h hlen
      rw [cutLines_of_ne_nil hpos hrest] at hmem
      rcases List.mem_cons.1 hmem with rfl | hmem
      · omega
      · rw [← hleft] at hmem hlater
        obtain ⟨bufs, hbufs⟩ := ih hwhole hmem hlater
        exact ⟨zeroMem :: bufs, by rw [calls, hcall, ok_bind, hbufs]; rfl⟩
    · exact ⟨[zeroMem], by rw [calls, rioReadlineb_overflow zeroMem h (by omega)]; rfl⟩

end

/-- **Reading lines does not depend on how the stream is split**, as long as an `int` can count the bytes of each line:
for every stream and every way `read` may deliver it, successive calls on a fresh `struct rio` return the pieces of the
stream and then 0, and the pieces are the stream. -/
theorem readline_cuts (maxlen : ℕ) (hpos : 1 ≤ maxlen) (junk : Mem) (reads : List Read) (hreads : Deliverable reads) :
    ((∀ bufs, calls maxlen bufs (rioInit junk reads) = .ok (pieces maxlen bufs.length (bytesOf reads))) ∧
      (cutLines maxlen (bytesOf reads)).flatten = bytesOf reads) ↔
      ∀ line ∈ cutLines maxlen (bytesOf reads), line.length < 2147483648 := by
  have hwhole : Whole (rioInit junk reads).reads := hreads.whole
  constructor
  · rintro ⟨hcalls, -⟩ line hmem
    by_contra hline
    obtain ⟨bufs, hbufs⟩ := calls_overflow hpos hwhole hmem (by omega)
    rw [hcalls] at hbufs
    cases hbufs
  · exact fun hlines =>
      ⟨fun bufs => calls_spec bufs hpos hwhole hlines, cutLines_flatten hpos _⟩

/-- a line that is too long for the array and one that does not end, in three calls of `read` -/
theorem readline_cuts_split :
    calls 4 [zeroMem, zeroMem, zeroMem, zeroMem]
        (rioInit zeroMem [.data [71, 69], .interrupted, .data [84, 32, 10], .data [13]]) =
      .ok [(4, [71, 69, 84, 32]), (1, [10]), (1, [13]), (0, [])] :=
  ((readline_cuts 4 (by decide) zeroMem [.data [71, 69], .interrupted, .data [84, 32, 10], .data [13]]
    (by simp [Deliverable, rioBufsize])).2 (by decide)).1 [zeroMem, zeroMem, zeroMem, zeroMem]

/-- `k` chunks of `n` bytes without a newline -/
def steady (k n : ℕ) : List Read := List.replicate k (.data (List.replicate n 97))

theorem steady_deliverable {k n : ℕ} (h1 : 1 ≤ n) (hn : n ≤ rioBufsize) : Deliverable (steady k n) := by
  intro bytes hmem
  have heq := List.eq_of_mem_replicate hmem
  rw [Read.data.injEq] at heq
  rw [heq, List.length_replicate]
  exact ⟨h1, hn⟩

theorem bytesOf_steady (k n : ℕ) : bytesOf (steady k n) = List.replicate (n * k) 97 := by
  induction k with
  | zero => rfl
  | succ k ih =>
    rw [steady, List.replicate_succ, bytesOf, ← steady, ih, List.replicate_append_replicate, Nat.mul_succ, Nat.add_comm]

theorem cutLine_steady (maxlen k n : ℕ) :
    cutLine maxlen (bytesOf (steady k n)) = List.replicate (min maxlen (n * k)) 97 := by
  rw [bytesOf_steady, cutLine_of_not_mem fun hmem => absurd (List.eq_of_mem_replicate hmem)
    (by decide), List.take_replicate]

/-- a line of 2^31 bytes and an array for it -/
theorem long_line_overflows :
    Deliverable (steady 262144 8192) ∧
      calls 2147483648 [zeroMem] (rioInit zeroMem (steady 262144 8192)) = .error .overflow := by
  have hreads : Deliverable (steady 262144 8192) := steady_deliverable (by decide) (le_refl _)
  have hcall : rioReadlineb (rioInit zeroMem (steady 262144 8192)) zeroMem 2147483648 = .error .overflow :=
    rioReadlineb_overflow zeroMem hreads.whole (by rw [rioInit_rest, cutLine_steady, List.length_replicate]; omega)
  exact ⟨hreads, by rw [calls, hcall]; rfl⟩

/-! ## The stores -/

/-- **A call stays within the array** if and only if the stream ends or has a newline early enough for the 0 to fit. -/
theorem readline_stores (maxlen : ℕ) (hpos : 1 ≤ maxlen) (usrbuf : Mem) (rp : Rio) (h : Deliverable rp.reads) :
    (∃ r, rioReadlineb rp usrbuf maxlen = .ok r ∧ ∀ i ∈ r.buf.stores, i < maxlen) ↔
      rp.rest.length < min maxlen 2147483648 ∨ 10 ∈ rp.rest.take (min maxlen 2147483648 - 1) := by
  rw [← cutLine_length_lt_iff (n := maxlen) (by omega) (by omega)]
  constructor
  · rintro ⟨r, hcall, hstores⟩
    by_cases hline : (cutLine maxlen rp.rest).length < 2147483648
    · obtain ⟨rq, hcall', -⟩ := rioReadlineb_spec usrbuf hpos h.whole hline
      rw [hcall] at hcall'
      obtain rfl := Except.ok.inj hcall'
      by_cases hnil : cutLine maxlen rp.rest = []
      · rw [hnil, List.length_nil]
        omega
      · have := hstores _ (close_stores.2 ⟨hnil, le_refl _⟩)
        omega
    · rw [rioReadlineb_overflow usrbuf h.whole (by omega)] at hcall
      cases hcall
  · intro hline
    obtain ⟨rq, hcall, -⟩ := rioReadlineb_spec usrbuf hpos h.whole (by omega)
    refine ⟨_, hcall, fun i hi => ?_⟩
    have := (close_stores.1 hi).2
    omega

/-- a line of one byte fits into an array of two -/
theorem readline_stores_short :
    ∃ r, rioReadlineb (rioInit zeroMem [.data [10, 13]]) zeroMem 2 = .ok r ∧ ∀ i ∈ r.buf.stores, i < 2 :=
  (readline_stores 2 (by decide) zeroMem (rioInit zeroMem [.data [10, 13]])
    (by simp [Deliverable, rioInit, rioBufsize])).2
    (by decide)

/-- a buffer full of bytes without a newline: the 0 goes behind an array of `MAXLINE` bytes -/
theorem full_line_overruns :
    Deliverable (steady 1 8192) ∧
      ∃ r, rioReadlineb (rioInit zeroMem (steady 1 8192)) zeroMem 8192 = .ok r ∧ 8192 ∈ r.buf.stores := by
  have hreads : Deliverable (steady 1 8192) := steady_deliverable (by decide) (le_refl _)
  have hcut : (cutLine 8192 (rioInit zeroMem (steady 1 8192)).rest).length = 8192 := by
    rw [rioInit_rest, cutLine_steady, List.length_replicate, Nat.mul_one, Nat.min_self]
  obtain ⟨rq, hcall, -⟩ := rioReadlineb_spec zeroMem (by decide)
    (show Whole (rioInit zeroMem (steady 1 8192)).reads from hreads.whole) (show (cutLine 8192 _).length < _ by omega)
  refine ⟨hreads, _, hcall, ?_⟩
  dsimp only
  rw [close_stores]
  refine ⟨fun hnil => ?_, hcut.ge⟩
  rw [hnil, List.length_nil] at hcut
  omega

end OsLab.Server.Lines
