/-
The response to a request and the client that reads it (`request_sendfile` in `webserver/request.c`, `rio_readb` and
`rio_readlineb` in `webserver/common.c`, `client_print` in `webserver/client.c`).

What `read` gives the client is a list (`Read`): the bytes of each call that returns some, and the calls that a signal
interrupts; after the last one `read` returns 0. The client's buffer has room for the 0 that `rio_readlineb` puts behind
a line, so a line is the list of its bytes; `buf` is what the last one that was not empty left there.

An `int` wraps around. The loops of `client_print` have a bound on their turns that they do not reach
(`clientPrint_response`).

Not modelled: `request_processfile`, errors of `read`.
-/
import Mathlib.Tactic
import OsLab.Lib.Run
import OsLab.Lib.Text
import OsLab.Cache.Model
import OsLab.Server.Requests

namespace OsLab.Server.Client

open OsLab.Lib OsLab.Cache
open OsLab.Server.Requests (toInt)

/-- a call of `read` that does not fail -/
inductive Read where
  | data (bytes : List UInt8)
  /-- `EINTR` -/
  | interrupted
deriving DecidableEq, Repr

/-! ## The response -/

def requestGetFileType (fileName : Key) : List UInt8 :=
  if str ".html" <:+: fileName then str "text/html"
  else if str ".gif" <:+: fileName then str "image/gif"
  else if str ".jpg" <:+: fileName then str "image/jpeg"
  else str "text/plain"

/-- the bytes of the file -/
def body (data : FileData) : List UInt8 := data.fileBuf.take data.fileSize.toNat

/-- what `request_sendfile` writes -/
def requestSendfile (data : FileData) : List UInt8 :=
  str "HTTP/1.0 200 OK\r\n" ++ str "Server: OS Web Server\r\n" ++
    (str "Content-Type: " ++ requestGetFileType data.fileName ++ str "\r\n") ++
    (str "Content-Length: " ++ printD data.fileSize ++ str "\r\n") ++
    (str "Content-Csum: " ++ printU (byteSum 0 (body data)).toNat ++ str "\r\n\r\n") ++ body data

/-! ## Buffered reading -/

structure Rio where
  /-- the `rio_cnt` bytes at `rio_bufptr` -/
  unread : List UInt8
  /-- what the calls of `read` to come give -/
  reads : List Read
deriving DecidableEq, Repr

def rioInit (reads : List Read) : Rio := ⟨[], reads⟩

/-- the loop that refills the empty buffer; nothing is unread after it at the end of the file -/
def refill : List Read → Rio
  | [] => ⟨[], []⟩
  | .interrupted :: reads => refill reads
  | .data bytes :: reads => ⟨bytes, reads⟩

def rioReadb (rp : Rio) (n : ℕ) : Rio × List UInt8 :=
  let rp := if rp.unread = [] then refill rp.reads else rp
  (⟨rp.unread.drop n, rp.reads⟩, rp.unread.take n)

/-- the line; it is empty at the end of the file -/
def rioReadlineb (rp : Rio) : ℕ → Rio × List UInt8
  | 0 => (rp, [])
  | maxlen + 1 =>
    match rioReadb rp 1 with
    | (rp, c :: _) =>
      if c = 10 then (rp, [c])
      else
        let (rp, line) := rioReadlineb rp maxlen
        (rp, c :: line)
    | (rp, []) => (rp, [])

/-! ## The client -/

inductive Stop where
  /-- an assertion fails -/
  | abort
  /-- the bound on the turns of a loop is reached -/
  | hang
deriving DecidableEq, Repr

def maxBuf : ℕ := 8192

structure State where
  rio : Rio
  buf : List UInt8
  length : ℤ
  lengthReceived : ℤ
  csum : UInt32
  csumReceived : UInt32
  /-- what has been written to standard output -/
  printed : List UInt8
deriving DecidableEq, Repr

/-- `buf` as a string -/
def State.text (s : State) : List UInt8 := s.buf.takeWhile (· ≠ 0)

/-- `Rio_readlineb(rio, buf, MAXBUF)` -/
def readLine (s : State) : State × ℕ :=
  let (rio, line) := rioReadlineb s.rio maxBuf
  ({ s with rio := rio, buf := if line = [] then s.buf else line }, line.length)

/-- `sscanf(buf, "Content-Length: %d ", &length)` -/
def tagLength (length : ℤ) (text : List UInt8) : ℤ :=
  match sscanf text "Content-Length: %d " with
  | [v] => toInt v
  | _ => length

/-- `sscanf(buf, "Content-Csum: %u ", &csum)` -/
def tagCsum (csum : UInt32) (text : List UInt8) : UInt32 :=
  match sscanf text "Content-Csum: %u " with
  | [v] => UInt32.ofInt v
  | _ => csum

/-- the loop over the header; `n` is what the last call of `Rio_readlineb` returned -/
def headerLoop (print : Bool) : ℕ → State → ℕ → Except Stop State
  | 0, _, _ => .error .hang
  | turns + 1, s, n =>
    if s.text ≠ str "\r\n" ∧ 0 < n then
      let s := { s with printed := if print then s.printed ++ str "Header: " ++ s.text else s.printed }
      let (s, n) := readLine s
      headerLoop print turns { s with length := tagLength s.length s.text, csum := tagCsum s.csum s.text } n
    else .ok s

/-- the loop over the body -/
def bodyLoop (print : Bool) : ℕ → State → Except Stop State
  | 0, _ => .error .hang
  | turns + 1, s =>
    let (s, n) := readLine s
    let s := { s with
      printed := if print then s.printed ++ s.buf.take n else s.printed
      lengthReceived := toInt (s.lengthReceived + n)
      csumReceived := byteSum s.csumReceived (s.buf.take n) }
    if 0 < n then bodyLoop print turns s else .ok s

/-- what is still to come -/
def bytesOf : List Read → List UInt8
  | [] => []
  | .interrupted :: reads => bytesOf reads
  | .data bytes :: reads => bytes ++ bytesOf reads

/-- `junk` is what is in the buffer at first -/
def clientPrint (reads : List Read) (junk : List UInt8) (origCsum : UInt32) (origLength : ℤ) (print : Bool) :
    Except Stop State := do
  let s : State := ⟨rioInit reads, junk, 0, 0, 0, 0, []⟩
  let (s, n) := readLine s
  let turns := (bytesOf reads).length + 1
  let s ← headerLoop print turns s n
  let s ← bodyLoop print turns s
  if origCsum = s.csum ∧ origLength = s.length ∧ s.length = s.lengthReceived ∧ s.csum = s.csumReceived then .ok s
  else .error .abort

/-! ## Reading does not depend on how the stream is split -/

/-- the bytes still to be read -/
def Rio.rest (rp : Rio) : List UInt8 := rp.unread ++ bytesOf rp.reads

/-- `read` returns no bytes only at the end of the file -/
def Whole (reads : List Read) : Prop := .data [] ∉ reads

theorem refill_rest (reads : List Read) : (refill reads).rest = bytesOf reads := by
  induction reads with
  | nil => rfl
  | cons x reads ih =>
    cases x with
    | interrupted => exact ih
    | data bytes => rfl

theorem refill_whole {reads : List Read} (h : Whole reads) :
    Whole (refill reads).reads ∧ ((refill reads).unread = [] → bytesOf reads = []) := by
  induction reads with
  | nil => exact ⟨by simp [Whole, refill], fun _ => rfl⟩
  | cons x reads ih =>
    have hreads : Whole reads := fun hmem => h (List.mem_cons_of_mem _ hmem)
    cases x with
    | interrupted => exact ih hreads
    | data bytes =>
      refine ⟨hreads, fun hnil => ?_⟩
      change bytes = [] at hnil
      subst hnil
      exact absurd List.mem_cons_self h

/-- one byte is read, unless there are none -/
theorem rioReadb_one {rp : Rio} (h : Whole rp.reads) :
    Whole (rioReadb rp 1).1.reads ∧ (rioReadb rp 1).2 = rp.rest.take 1 ∧ (rioReadb rp 1).1.rest = rp.rest.drop 1 := by
  have hread : ∀ q : Rio, Whole q.reads → q.rest = rp.rest → (q.unread = [] → rp.rest = []) →
      Whole q.reads ∧ q.unread.take 1 = rp.rest.take 1 ∧ (⟨q.unread.drop 1, q.reads⟩ : Rio).rest = rp.rest.drop 1 := by
    intro q hq hrest hnil
    refine ⟨hq, ?_, ?_⟩
    · rw [← hrest, Rio.rest]
      cases hu : q.unread with
      | nil =>
        have := hnil hu
        rw [← hrest, Rio.rest, hu, List.nil_append] at this
        rw [this, List.nil_append]
      | cons c unread => simp
    · rw [← hrest, Rio.rest, Rio.rest]
      cases hu : q.unread with
      | nil =>
        have := hnil hu
        rw [← hrest, Rio.rest, hu, List.nil_append] at this
        simp [this]
      | cons c unread => simp
  unfold rioReadb
  by_cases hempty : rp.unread = []
  · obtain ⟨hwhole, hend⟩ := refill_whole h
    have hrest : rp.rest = bytesOf rp.reads := by rw [Rio.rest, hempty, List.nil_append]
    rw [if_pos hempty]
    exact hread _ hwhole (by rw [refill_rest, hrest]) fun hnil => by rw [hrest]; exact hend hnil
  · rw [if_neg hempty]
    exact hread rp h rfl fun hnil => absurd hnil hempty

/-- **A line is the first line of the bytes still to be read**, however they are split. -/
theorem rioReadlineb_spec (maxlen : ℕ) {rp : Rio} (h : Whole rp.reads) :
    Whole (rioReadlineb rp maxlen).1.reads ∧ (rioReadlineb rp maxlen).2 = cutLine maxlen rp.rest ∧
      (rioReadlineb rp maxlen).1.rest = rp.rest.drop (cutLine maxlen rp.rest).length := by
  induction maxlen generalizing rp with
  | zero => exact ⟨h, rfl, rfl⟩
  | succ maxlen ih =>
    obtain ⟨hwhole, hbyte, hrest⟩ := rioReadb_one h
    simp only [rioReadlineb]
    cases hr : rioReadb rp 1 with
    | mk rq bytes =>
      rw [hr] at hwhole hbyte hrest
      dsimp only at hwhole hbyte hrest
      cases htext : rp.rest with
      | nil =>
        rw [htext, List.take_nil] at hbyte
        rw [htext, List.drop_nil] at hrest
        subst hbyte
        exact ⟨hwhole, rfl, by simpa [cutLine] using hrest⟩
      | cons c text =>
        rw [htext] at hbyte hrest
        simp only [List.take_succ_cons, List.take_zero, List.drop_succ_cons, List.drop_zero] at hbyte hrest
        subst hbyte
        simp only [cutLine]
        by_cases hc : c = 10
        · rw [if_pos hc, if_pos hc]
          exact ⟨hwhole, rfl, by simpa using hrest⟩
        · rw [if_neg hc, if_neg hc]
          obtain ⟨hw, hline, hleft⟩ := ih hwhole
          rw [hrest] at hline hleft
          exact ⟨hw, by rw [hline], by rw [hleft]; simp⟩

/-! ## The loops -/

section

variable {s : State} {text : List UInt8}

theorem readLine_spec (h : Whole s.rio.reads) (hrest : s.rio.rest = text) :
    ∃ rio, readLine s = ({ s with rio := rio, buf := if cutLine maxBuf text = [] then s.buf else cutLine maxBuf text },
        (cutLine maxBuf text).length) ∧
      Whole rio.reads ∧ rio.rest = text.drop (cutLine maxBuf text).length := by
  obtain ⟨hwhole, hline, hleft⟩ := rioReadlineb_spec maxBuf h
  rw [hrest] at hline hleft
  refine ⟨(rioReadlineb s.rio maxBuf).1, ?_, hwhole, hleft⟩
  rw [← hline]
  rfl

theorem toInt_of_lt {z : ℤ} (h0 : 0 ≤ z) (h : z < 2147483648) : toInt z = z := by
  rw [toInt, Int.emod_eq_of_lt (by omega) (by omega)]
  omega

/-- **The loop over the body** receives exactly the bytes still to be read. -/
theorem bodyLoop_spec (print : Bool) {turns : ℕ} (h : Whole s.rio.reads) (hrest : s.rio.rest = text)
    (hturns : text.length < turns) (h0 : 0 ≤ s.lengthReceived) (hlen : s.lengthReceived + text.length < 2147483648) :
    ∃ t, bodyLoop print turns s = .ok t ∧ t.length = s.length ∧ t.csum = s.csum ∧
      t.lengthReceived = s.lengthReceived + text.length ∧ t.csumReceived = byteSum s.csumReceived text ∧
      t.printed = s.printed ++ if print then text else [] := by
  induction turns generalizing s text with
  | zero => omega
  | succ turns ih =>
    obtain ⟨rio, hread, hwhole, hleft⟩ := readLine_spec h hrest
    have hparts := cutLine_append_rest maxBuf text
    simp only [bodyLoop, hread]
    by_cases hempty : text = []
    · -- the end of the file
      subst hempty
      have hline : cutLine maxBuf [] = [] := rfl
      rw [hline]
      simp only [List.length_nil, Nat.cast_zero, add_zero, lt_irrefl, if_false, if_true, List.take_zero,
        List.append_nil, byteSum, List.foldl_nil]
      refine ⟨_, rfl, ?_, ?_, ?_, ?_, ?_⟩ <;> cases print <;> simp [toInt_of_lt h0 (by simpa using hlen)]
    · have hne := cutLine_ne_nil (n := maxBuf) (by decide) hempty
      have hpos : 0 < (cutLine maxBuf text).length := List.length_pos_iff.2 hne
      have hsum : (cutLine maxBuf text).length + (text.drop (cutLine maxBuf text).length).length = text.length := by
        rw [← List.length_append, hparts]
      set line := cutLine maxBuf text with hline
      have hint : toInt (s.lengthReceived + line.length) = s.lengthReceived + line.length :=
        toInt_of_lt (by omega) (by omega)
      simp only [hne, if_false, hpos, if_true, List.take_length, hint]
      obtain ⟨t, ht, hlength, hcsum, hreceived, hsum', hprinted⟩ :=
        ih (s := ⟨rio, line, s.length, s.lengthReceived + line.length, s.csum, byteSum s.csumReceived line,
            if print then s.printed ++ line else s.printed⟩) hwhole hleft (by omega) (by change 0 ≤ _ + _; omega)
          (by change _ + _ + _ < _; omega)
      dsimp only at hlength hcsum hreceived hsum' hprinted
      refine ⟨t, ht, hlength, hcsum, ?_, ?_, ?_⟩
      · rw [hreceived, ← hsum]
        push_cast
        ring
      · rw [hsum', ← byteSum_append, hparts]
      · rw [hprinted]
        cases print with
        | false => simp
        | true => simp [hparts]

theorem readLine_line {line rest : List UInt8} (h : Whole s.rio.reads) (hrest : s.rio.rest = line ++ 10 :: rest)
    (hline : 10 ∉ line) (hlen : line.length < maxBuf) :
    ∃ rio, readLine s = ({ s with rio := rio, buf := line ++ [10] }, line.length + 1) ∧ Whole rio.reads ∧
      rio.rest = rest := by
  obtain ⟨rio, hread, hwhole, hleft⟩ := readLine_spec h hrest
  rw [cutLine_line hline hlen] at hread hleft
  refine ⟨rio, ?_, hwhole, ?_⟩
  · rw [hread]
    simp
  · rw [hleft]
    simp

/-- at a line of the header, with the numbers found so far -/
structure AtLine (s : State) (line rest : List UInt8) (length : ℤ) (csum : UInt32) : Prop where
  whole : Whole s.rio.reads
  rest : s.rio.rest = rest
  buf : s.buf = line
  length : s.length = length
  csum : s.csum = csum
  lengthReceived : s.lengthReceived = 0
  csumReceived : s.csumReceived = 0

/-- one turn of the loop over the header -/
theorem AtLine.step (print : Bool) (turns : ℕ) {line next rest : List UInt8} {length : ℤ} {csum : UInt32} {n : ℕ}
    (h : AtLine s line (next ++ 10 :: rest) length csum) (hn : 0 < n) (hgo : line.takeWhile (· ≠ 0) ≠ str "\r\n")
    (hnext : 10 ∉ next) (hlen : next.length < maxBuf) :
    ∃ t, headerLoop print (turns + 1) s n = headerLoop print turns t (next.length + 1) ∧
      AtLine t (next ++ [10]) rest (tagLength length ((next ++ [10]).takeWhile (· ≠ 0)))
        (tagCsum csum ((next ++ [10]).takeWhile (· ≠ 0))) := by
  have hcond : s.text ≠ str "\r\n" ∧ 0 < n := ⟨by rw [State.text, h.buf]; exact hgo, hn⟩
  obtain ⟨rio, hread, hwhole, hleft⟩ := readLine_line
    (s := { s with printed := if print then s.printed ++ str "Header: " ++ s.text else s.printed })
    h.whole h.rest hnext hlen
  simp only [headerLoop, if_pos hcond, hread]
  refine ⟨_, rfl, hwhole, hleft, rfl, ?_, ?_, h.lengthReceived, h.csumReceived⟩
  · rw [← h.length]; rfl
  · rw [← h.csum]; rfl

/-- the loop ends at the blank line -/
theorem AtLine.stop (print : Bool) (turns n : ℕ) {rest : List UInt8} {length : ℤ} {csum : UInt32}
    (h : AtLine s (str "\r\n") rest length csum) : headerLoop print (turns + 1) s n = .ok s := by
  have hcond : ¬ (s.text ≠ str "\r\n" ∧ 0 < n) := by
    rw [State.text, h.buf]
    exact fun hc => hc.1 (by decide)
  rw [headerLoop, if_neg hcond]

/-! ## The header -/

/-- a line of the header that is short and has no 0, without its newline -/
structure Plain (line : List UInt8) : Prop where
  newline : 10 ∉ line
  zero : 0 ∉ line
  short : line.length < maxBuf

theorem Plain.takeWhile_eq {line : List UInt8} (h : Plain line) : (line ++ [10]).takeWhile (· ≠ 0) = line ++ [10] := by
  rw [List.takeWhile_eq_self_iff]
  intro c hc
  rcases List.mem_append.1 hc with hc | hc
  · have hne : c ≠ 0 := fun heq => h.zero (heq ▸ hc)
    simpa using hne
  · rw [List.mem_singleton.1 hc]; decide

/-- one turn of the loop with a line in which the numbers are found as given -/
theorem AtLine.next (print : Bool) (turns : ℕ) {line next rest : List UInt8} {length length' : ℤ}
    {csum csum' : UInt32} {n : ℕ} (h : AtLine s line (next ++ 10 :: rest) length csum) (hn : 0 < n)
    (hgo : line.takeWhile (· ≠ 0) ≠ str "\r\n") (hplain : Plain next)
    (hlength : tagLength length (next ++ [10]) = length') (hcsum : tagCsum csum (next ++ [10]) = csum') :
    ∃ t, headerLoop print (turns + 1) s n = headerLoop print turns t (next.length + 1) ∧
      AtLine t (next ++ [10]) rest length' csum' := by
  obtain ⟨t, ht, hat⟩ := h.step print turns hn hgo hplain.newline hplain.short
  rw [hplain.takeWhile_eq, hlength, hcsum] at hat
  exact ⟨t, ht, hat⟩

theorem tagLength_none {length : ℤ} {text : List UInt8} (h : sscanf text "Content-Length: %d " = []) :
    tagLength length text = length := by
  rw [tagLength, h]

theorem tagCsum_none {csum : UInt32} {text : List UInt8} (h : sscanf text "Content-Csum: %u " = []) :
    tagCsum csum text = csum := by
  rw [tagCsum, h]

/-- the line with a tag and a number -/
def tagLine (tag : String) (z : ℤ) : List UInt8 := str tag ++ 32 :: (printD z ++ [13])

theorem tagLine_plain {n : ℕ} (tag : String) (htag : 10 ∉ str tag ∧ 0 ∉ str tag) (hlen : (str tag).length < 100)
    (hn : n < 10 ^ 10) : Plain (tagLine tag n) := by
  have hmem : ∀ c ∈ tagLine tag n, c ∈ str tag ∨ c = 32 ∨ c ∈ printD n ∨ c = 13 := fun c hc => by
    simpa [tagLine] using hc
  have hprint := printU_length (by decide : 0 < 10) hn
  rw [printU_eq_printD] at hprint
  refine ⟨fun hc => ?_, fun hc => ?_, ?_⟩
  · rcases hmem 10 hc with hc | hc | hc | hc
    · exact htag.1 hc
    · exact absurd hc (by decide)
    · exact (printD_bytes hc).2 rfl
    · exact absurd hc (by decide)
  · rcases hmem 0 hc with hc | hc | hc | hc
    · exact htag.2 hc
    · exact absurd hc (by decide)
    · exact (printD_bytes hc).1 rfl
    · exact absurd hc (by decide)
  · simp only [tagLine, List.length_append, List.length_cons, List.length_nil, maxBuf]
    omega

theorem tagLine_go {tag : String} {n : ℕ} (hplain : Plain (tagLine tag n)) (htag : (str tag).head? = some 67) :
    (tagLine tag n ++ [10]).takeWhile (· ≠ 0) ≠ str "\r\n" := by
  rw [hplain.takeWhile_eq]
  intro heq
  have hhead := congrArg List.head? heq
  rw [show (str "\r\n").head? = some 13 by decide, tagLine, List.append_assoc, List.head?_append, htag] at hhead
  simp at hhead

theorem head?_crlf (c : UInt8) (h : (str "\r\n").head? = some c) : isDigit c = false := by
  have hc : c = 13 := by simpa using h.symm.trans (by decide : (str "\r\n").head? = some 13)
  rw [hc]; decide

theorem sscanf_length (z : ℤ) : sscanf (tagLine "Content-Length:" z ++ [10]) "Content-Length: %d " = [z] := by
  have hformat : directives (str "Content-Length: %d ") =
      (str "Content-Length:").map .literal ++ [.blank, .number, .blank] := by decide
  have htext : tagLine "Content-Length:" z ++ [10] = str "Content-Length:" ++ 32 :: (printD z ++ str "\r\n") := by
    rw [show str "\r\n" = [13, 10] by decide]
    simp [tagLine]
  rw [sscanf, hformat, htext, scan_literals, scan_printD head?_crlf]

theorem sscanf_csum (z : ℤ) : sscanf (tagLine "Content-Csum:" z ++ [10]) "Content-Csum: %u " = [z] := by
  have hformat : directives (str "Content-Csum: %u ") =
      (str "Content-Csum:").map .literal ++ [.blank, .number, .blank] := by decide
  have htext : tagLine "Content-Csum:" z ++ [10] = str "Content-Csum:" ++ 32 :: (printD z ++ str "\r\n") := by
    rw [show str "\r\n" = [13, 10] by decide]
    simp [tagLine]
  rw [sscanf, hformat, htext, scan_literals, scan_printD head?_crlf]

theorem sscanf_length_csum (z : ℤ) : sscanf (tagLine "Content-Length:" z ++ [10]) "Content-Csum: %u " = [] := by
  have hformat : directives (str "Content-Csum: %u ") =
      (str "Content-").map .literal ++ .literal 67 :: directives (str "sum: %u ") := by decide
  have htext : tagLine "Content-Length:" z ++ [10] =
      str "Content-" ++ 76 :: (str "ength:" ++ 32 :: (printD z ++ [13, 10])) := by
    rw [tagLine, show str "Content-Length:" = str "Content-" ++ 76 :: str "ength:" by decide]
    simp
  rw [sscanf, hformat, htext, scan_literals, scan_mismatch (by decide)]

theorem sscanf_csum_length (z : ℤ) : sscanf (tagLine "Content-Csum:" z ++ [10]) "Content-Length: %d " = [] := by
  have hformat : directives (str "Content-Length: %d ") =
      (str "Content-").map .literal ++ .literal 76 :: directives (str "ength: %d ") := by decide
  have htext : tagLine "Content-Csum:" z ++ [10] =
      str "Content-" ++ 67 :: (str "sum:" ++ 32 :: (printD z ++ [13, 10])) := by
    rw [tagLine, show str "Content-Csum:" = str "Content-" ++ 67 :: str "sum:" by decide]
    simp
  rw [sscanf, hformat, htext, scan_literals, scan_mismatch (by decide)]

/-- a line without a tag -/
structure Untagged (line : List UInt8) : Prop where
  plain : Plain line
  length : sscanf (line ++ [10]) "Content-Length: %d " = []
  csum : sscanf (line ++ [10]) "Content-Csum: %u " = []
  go : (line ++ [10]).takeWhile (· ≠ 0) ≠ str "\r\n"

theorem AtLine.skip (print : Bool) (turns : ℕ) {line next rest : List UInt8} {length : ℤ} {csum : UInt32} {n : ℕ}
    (h : AtLine s line (next ++ 10 :: rest) length csum) (hn : 0 < n) (hgo : line.takeWhile (· ≠ 0) ≠ str "\r\n")
    (hnext : Untagged next) :
    ∃ t, headerLoop print (turns + 1) s n = headerLoop print turns t (next.length + 1) ∧
      AtLine t (next ++ [10]) rest length csum :=
  h.next print turns hn hgo hnext.plain (tagLength_none hnext.length) (tagCsum_none hnext.csum)

theorem untagged_status : Untagged (str "HTTP/1.0 200 OK\r") :=
  ⟨⟨by decide, by decide, by decide⟩, by decide, by decide, by decide⟩

theorem untagged_server : Untagged (str "Server: OS Web Server\r") :=
  ⟨⟨by decide, by decide, by decide⟩, by decide, by decide, by decide⟩

theorem untagged_blank : Plain (str "\r") := ⟨by decide, by decide, by decide⟩

theorem untagged_type (fileName : Key) :
    Untagged (str "Content-Type: " ++ requestGetFileType fileName ++ str "\r") := by
  unfold requestGetFileType
  split_ifs
  · exact ⟨⟨by decide, by decide, by decide⟩, by decide, by decide, by decide⟩
  · exact ⟨⟨by decide, by decide, by decide⟩, by decide, by decide, by decide⟩
  · exact ⟨⟨by decide, by decide, by decide⟩, by decide, by decide, by decide⟩
  · exact ⟨⟨by decide, by decide, by decide⟩, by decide, by decide, by decide⟩

/-- **The loop over the header** ends at the blank line with both numbers. -/
theorem headerLoop_spec (print : Bool) (turns : ℕ) {fileName : Key} {size : ℕ} {csum : UInt32} {rest : List UInt8}
    (hsize : size < 2147483648)
    (h : AtLine s (str "HTTP/1.0 200 OK\r" ++ [10]) (str "Server: OS Web Server\r" ++ 10 ::
      (str "Content-Type: " ++ requestGetFileType fileName ++ str "\r" ++ 10 ::
        (tagLine "Content-Length:" size ++
        10 :: (tagLine "Content-Csum:" csum.toNat ++ 10 :: (str "\r" ++ 10 :: rest)))))
      0 0) :
    ∃ t, headerLoop print (turns + 6) s ((str "HTTP/1.0 200 OK\r").length + 1) = .ok t ∧
      AtLine t (str "\r\n") rest size csum := by
  have hlength : Plain (tagLine "Content-Length:" size) := tagLine_plain _ (by decide) (by decide) (by omega)
  have hcsum : Plain (tagLine "Content-Csum:" csum.toNat) := by
    have := csum.toNat_lt
    exact tagLine_plain _ (by decide) (by decide) (by omega)
  have hblank : ∀ length, tagLength length (str "\r" ++ [10]) = length := fun length => tagLength_none (by decide)
  have hblank' : ∀ csum, tagCsum csum (str "\r" ++ [10]) = csum := fun csum => tagCsum_none (by decide)
  have hsize' : tagLength 0 (tagLine "Content-Length:" size ++ [10]) = size := by
    rw [tagLength, sscanf_length]
    exact toInt_of_lt (by omega) (by omega)
  have hcsum' : tagCsum 0 (tagLine "Content-Csum:" csum.toNat ++ [10]) = csum := by
    rw [tagCsum, sscanf_csum, ← UInt32.toNat_inj]
    change (UInt32.ofNat ((csum.toNat : ℤ) % 2 ^ 32).toNat).toNat = csum.toNat
    rw [UInt32.toNat_ofNat']
    have := csum.toNat_lt
    omega
  obtain ⟨s2, e2, h2⟩ := h.skip print (turns + 5) (Nat.succ_pos _) untagged_status.go untagged_server
  obtain ⟨s3, e3, h3⟩ := h2.skip print (turns + 4) (Nat.succ_pos _) untagged_server.go (untagged_type fileName)
  obtain ⟨s4, e4, h4⟩ := h3.next print (turns + 3) (Nat.succ_pos _) (untagged_type fileName).go hlength hsize'
    (tagCsum_none (sscanf_length_csum size))
  obtain ⟨s5, e5, h5⟩ := h4.next print (turns + 2) (Nat.succ_pos _) (tagLine_go hlength (by decide)) hcsum
    (tagLength_none (sscanf_csum_length csum.toNat)) hcsum'
  obtain ⟨s6, e6, h6⟩ := h5.next print (turns + 1) (Nat.succ_pos _) (tagLine_go hcsum (by decide)) untagged_blank
    (hblank _) (hblank' _)
  have hcrlf : str "\r" ++ [10] = str "\r\n" := by decide
  rw [hcrlf] at h6
  refine ⟨s6, ?_, h6⟩
  rw [e2, e3, e4, e5, e6]
  exact h6.stop print turns _

/-- the response by its lines -/
theorem requestSendfile_lines (data : FileData) :
    requestSendfile data = str "HTTP/1.0 200 OK\r" ++ 10 :: (str "Server: OS Web Server\r" ++ 10 ::
      (str "Content-Type: " ++ requestGetFileType data.fileName ++ str "\r" ++ 10 ::
        (tagLine "Content-Length:" data.fileSize ++ 10 ::
          (tagLine "Content-Csum:" (byteSum 0 (body data)).toNat ++ 10 :: (str "\r" ++ 10 :: body data))))) := by
  rw [requestSendfile, tagLine, tagLine, printU_eq_printD,
    show str "HTTP/1.0 200 OK\r\n" = str "HTTP/1.0 200 OK\r" ++ [10] by decide,
    show str "Server: OS Web Server\r\n" = str "Server: OS Web Server\r" ++ [10] by decide,
    show str "\r\n" = str "\r" ++ [10] by decide, show str "\r\n\r\n" = [13, 10] ++ str "\r" ++ [10] by decide,
    show str "Content-Length: " = str "Content-Length:" ++ [32] by decide,
    show str "Content-Csum: " = str "Content-Csum:" ++ [32] by decide, show str "\r" = [13] by decide]
  simp

end

/-- **The response and the client agree.** For every file name and every content, and however the response is split into
the results of `read`, the client finds the size and the sum of the bytes in the header, receives exactly the body, and
none of its assertions fails. -/
theorem clientPrint_response (data : FileData) (hdata : data.fileSize = data.fileBuf.length)
    (hsize : data.fileSize < 2147483648) (reads : List Read) (hwhole : Whole reads)
    (hreads : bytesOf reads = requestSendfile data) (junk : List UInt8) (print : Bool) :
    ∃ s, clientPrint reads junk (UInt32.ofNat (data.fileBuf.map UInt8.toNat).sum) data.fileBuf.length print = .ok s ∧
      s.length = data.fileSize ∧ s.csum.toNat = (data.fileBuf.map UInt8.toNat).sum % 4294967296 ∧
      s.lengthReceived = data.fileBuf.length ∧ s.csumReceived = s.csum ∧
      (print = true → ∃ header, s.printed = header ++ data.fileBuf) := by
  have hbody : body data = data.fileBuf := by rw [body, hdata]; simp
  have hsum : UInt32.ofNat (data.fileBuf.map UInt8.toNat).sum = byteSum 0 data.fileBuf := by
    rw [← UInt32.toNat_inj, byteSum_toNat, UInt32.toNat_ofNat']
    simp
  -- the turns of the loop over the header
  obtain ⟨turns, hturns, hbound⟩ : ∃ turns, (bytesOf reads).length + 1 = turns + 6 ∧
      data.fileBuf.length < turns + 6 := by
    refine ⟨(bytesOf reads).length - 5, ?_, ?_⟩
    · have hstatus : str "HTTP/1.0 200 OK\r" = 72 :: 84 :: 84 :: 80 :: 47 :: str "1.0 200 OK\r" := by decide
      rw [hreads, requestSendfile_lines, hstatus]
      simp only [List.length_append, List.length_cons]
      omega
    · rw [hreads, requestSendfile_lines, hbody]
      simp only [List.length_append, List.length_cons]
      omega
  have hn : data.fileBuf.length < 2147483648 := by omega
  have hlines := requestSendfile_lines data
  rw [hdata, hbody] at hlines
  obtain ⟨rio, hread, hw, hrest⟩ := readLine_line (s := ⟨rioInit reads, junk, 0, 0, 0, 0, []⟩) hwhole
    (hreads.trans hlines) untagged_status.plain.newline untagged_status.plain.short
  obtain ⟨t, hheader, hat⟩ :=
    headerLoop_spec (s := ⟨rio, str "HTTP/1.0 200 OK\r" ++ [10], 0, 0, 0, 0, []⟩) print turns hn
    ⟨hw, hrest, rfl, rfl, rfl, rfl, rfl⟩
  obtain ⟨u, hloop, hlength, hcsum, hreceived, hsum', hprinted⟩ := bodyLoop_spec print hat.whole hat.rest hbound
    (by rw [hat.lengthReceived]) (by rw [hat.lengthReceived]; omega)
  rw [hat.length] at hlength
  rw [hat.csum] at hcsum
  rw [hat.lengthReceived, zero_add] at hreceived
  rw [hat.csumReceived] at hsum'
  have hok : UInt32.ofNat (data.fileBuf.map UInt8.toNat).sum = u.csum ∧ (data.fileBuf.length : ℤ) = u.length ∧
      u.length = u.lengthReceived ∧ u.csum = u.csumReceived := by
    rw [hsum, hlength, hcsum, hreceived, hsum']
    exact ⟨rfl, rfl, rfl, rfl⟩
  refine ⟨u, ?_, by rw [hlength, hdata], ?_, hreceived, by rw [hsum', hcsum], fun hprint => ⟨t.printed, ?_⟩⟩
  · simp only [clientPrint, hread, hturns, hheader, hloop, ok_bind]
    rw [if_pos hok]
  · rw [hcsum, byteSum_toNat]
    simp
  · rw [hprinted, if_pos hprint]

/-- a content with a 0 and a blank line in it, in three calls of `read` -/
theorem clientPrint_response_split :
    ∃ s, clientPrint [.data ((requestSendfile ⟨str "./a.gif", 4, [0, 13, 10, 255], 0⟩).take 70), .interrupted,
        .data ((requestSendfile ⟨str "./a.gif", 4, [0, 13, 10, 255], 0⟩).drop 70)] [] 278 4 true = .ok s ∧
      s.length = 4 ∧ s.csumReceived = s.csum := by
  obtain ⟨s, hs, hlength, -, -, hcsum, -⟩ := clientPrint_response ⟨str "./a.gif", 4, [0, 13, 10, 255], 0⟩ (by decide)
    (by decide) [.data ((requestSendfile ⟨str "./a.gif", 4, [0, 13, 10, 255], 0⟩).take 70), .interrupted,
      .data ((requestSendfile ⟨str "./a.gif", 4, [0, 13, 10, 255], 0⟩).drop 70)]
    (by unfold Whole; decide +kernel) (by decide +kernel) [] true
  exact ⟨s, hs, hlength, hcsum⟩

end OsLab.Server.Client
