import KTorrent.Lib.GuardedRun
import Mathlib.Data.List.Infix
import Mathlib.Data.List.TakeWhile
import Mathlib.Tactic.Linarith

/-!
# `kt::HttpClientHandler`

One connection of the web interface: bytes come in pieces, and requests are handed to the server. A
header is read by lines until an empty one; a body is counted; while a php script runs, nothing is
read.

* `readLine`, `readHeader` — lines of the socket, taken while there is a whole one.
* `readyToRead`, `onPHPFinished` — the two things that happen to a connection. What the library makes
  of a header (`TQHttpRequestHeader`) and which requests start a script are parameters.
* `readHeader_whole`, `readHeader_part` — a header that has arrived is read, one that has not is kept.

The records `received` and `handed` are not in the source: the bytes that came, and the requests the
server was handed.

Source: `plugins/webinterface/httpclienthandler.h`, `plugins/webinterface/httpclienthandler.cpp`
-/

namespace KTorrent.Web

/-! ### Lines -/

/-- The first line, with its end, and what follows it; `none` when there is no whole line.
Source: `TQSocket::canReadLine`, `TQSocket::readLine`. Kind: D -/
def readLine : List UInt8 → Option (List UInt8 × List UInt8)
  | [] => none
  | c :: cs => if c = 10 then some ([10], cs) else (readLine cs).map fun q => (c :: q.1, q.2)

/-- The text made of bytes ends before the first zero. Source: `TQString::TQString(TQByteArray)`.
Kind: D -/
def cString (bs : List UInt8) : List UInt8 := bs.takeWhile (· ≠ 0)

/-- The end of a header. Kind: D -/
def emptyLine : List UInt8 := [13, 10, 13, 10]

/-- A line that is read shortens the rest. Source: `TQSocket::canReadLine`, `TQSocket::readLine`.
Kind: L -/
theorem readLine_length {bs line rest : List UInt8} (h : readLine bs = some (line, rest)) :
    rest.length < bs.length := by
  induction bs generalizing line with
  | nil => cases h
  | cons c cs ih =>
    rw [readLine] at h
    split_ifs at h with hc
    · obtain ⟨-, rfl⟩ := Prod.mk.inj (Option.some.inj h)
      exact Nat.lt_succ_self _
    · obtain ⟨⟨line', rest'⟩, hq, heq⟩ := Option.map_eq_some_iff.mp h
      obtain ⟨-, rfl⟩ := Prod.mk.inj heq
      exact Nat.lt_succ_of_lt (ih hq)

/-- Lines are added to the header until it ends; the last component says whether it did.
Source: `HttpClientHandler::readyToRead`, the loop. Kind: D -/
def readHeader (client header_data : List UInt8) : List UInt8 × List UInt8 × Bool :=
  match _h : readLine client with
  | none => (client, header_data, false)
  | some (line, rest) =>
      if emptyLine <:+ header_data ++ cString line then (rest, header_data ++ cString line, true)
      else readHeader rest (header_data ++ cString line)
termination_by client.length
decreasing_by exact readLine_length _h

/-! ### The connection -/

/-- What the library makes of a header, as far as it is looked at: the method, and for a `POST` its
`Content-Length`. Source: `TQHttpRequestHeader`. Kind: D -/
inductive Method
  | get
  | post (contentLength : Option ℕ)
  | other
deriving DecidableEq

/-- Source: `plugins/webinterface/httpclienthandler.h`, `HttpClientHandler::State`. Kind: D -/
inductive ClientState
  | WAITING_FOR_REQUEST
  | WAITING_FOR_CONTENT
  | PROCESSING_PHP
deriving DecidableEq

/-- Source: `plugins/webinterface/httpclienthandler.h`, `HttpClientHandler`; `request_data` is as far
as `bytes_read` says. The last two fields are history, which nothing reads. Kind: D -/
structure HttpClientHandler where
  state : ClientState := .WAITING_FOR_REQUEST
  /-- The bytes the socket holds. -/
  client : List UInt8 := []
  header_data : List UInt8 := []
  /-- Source: `header.contentLength()`. -/
  contentLength : ℕ := 0
  request_data : List UInt8 := []
  /-- Whether `php` points to a script. -/
  php : Bool := false
  /-- The scripts that run. -/
  running : ℕ := 0
  /-- History: the bytes that came. -/
  received : List UInt8 := []
  /-- History: the requests handed to the server, header and body. -/
  handed : List (List UInt8 × List UInt8) := []

namespace HttpClientHandler

variable (parse : List UInt8 → Method) (starts : ℕ → Bool)

/-- A request is handed to the server, which starts a script for the `k`-th one if `starts k`.
Source: `HttpServer::handleGet`, `HttpServer::handlePost`, `HttpClientHandler::executePHPScript`.
Kind: D -/
def hand (header body : List UInt8) (s : HttpClientHandler) : HttpClientHandler :=
  if starts s.handed.length then
    { s with
      handed := s.handed ++ [(header, body)]
      state := .PROCESSING_PHP
      php := true
      running := s.running + 1 }
  else { s with handed := s.handed ++ [(header, body)] }

/-- The server does not touch what is being read. Source: `HttpServer::handleGet`,
`HttpServer::handlePost`. Kind: L -/
theorem hand_frame (header body : List UInt8) (s : HttpClientHandler) :
    (hand starts header body s).client = s.client ∧
      (hand starts header body s).header_data = s.header_data ∧
      (hand starts header body s).contentLength = s.contentLength ∧
      (hand starts header body s).received = s.received ∧
      (hand starts header body s).handed = s.handed ++ [(header, body)] := by
  unfold hand
  split_ifs <;> exact ⟨rfl, rfl, rfl, rfl, rfl⟩

/-- What is left to do, for the recursion of `readyToRead`. Kind: D -/
def left (s : HttpClientHandler) : ℕ :=
  2 * s.client.length + if s.state = .WAITING_FOR_CONTENT then 1 else 0

/-- A header that is complete shortens the rest. Source: `HttpClientHandler::readyToRead`.
Kind: L -/
theorem readHeader_length {client header_data rest hdr : List UInt8}
    (h : readHeader client header_data = (rest, hdr, true)) : rest.length < client.length := by
  induction hn : client.length using Nat.strong_induction_on generalizing client header_data with
  | _ n ih =>
    rw [readHeader] at h
    split at h
    · cases h
    · rename_i line rest' hline
      have hlt := readLine_length hline
      split_ifs at h with hend
      · obtain ⟨rfl, -⟩ := Prod.mk.inj h
        exact hn ▸ hlt
      · exact (ih _ (hn ▸ hlt) h rfl).trans (hn ▸ hlt)

/-- Source: `HttpClientHandler::readyToRead`, with `HttpClientHandler::handleRequest`; the bytes that
are there are counted in 32 bits. Kind: D -/
def readyToRead (s : HttpClientHandler) : HttpClientHandler :=
  match _hs : s.state with
  | .WAITING_FOR_REQUEST =>
      match _h : readHeader s.client s.header_data with
      | (rest, hdr, false) => { s with client := rest, header_data := hdr }
      | (rest, hdr, true) =>
          match parse hdr with
          | .post (some n) =>
              let s' := { s with
                client := rest
                header_data := hdr
                contentLength := n
                request_data := []
                state := .WAITING_FOR_CONTENT }
              if rest = [] then s' else readyToRead s'
          | .post none => { s with client := rest, header_data := hdr }
          | .get =>
              { hand starts hdr [] { s with client := rest } with
                header_data := []
                request_data := [] }
          | .other => { s with client := rest, header_data := hdr }
  | .WAITING_FOR_CONTENT =>
      if (s.client.length + s.request_data.length) % 2 ^ 32 < s.contentLength then
        { s with client := [], request_data := s.request_data ++ s.client }
      else
        let n := s.contentLength - s.request_data.length
        let s' := { hand starts s.header_data (s.request_data ++ s.client.take n)
            { s with client := s.client.drop n } with
          header_data := []
          request_data := []
          state := .WAITING_FOR_REQUEST }
        if s.client.drop n = [] then s' else readyToRead s'
  | .PROCESSING_PHP => s
termination_by s.left
decreasing_by
  · have hlt := readHeader_length _h
    simp only [left, _hs, if_pos, reduceCtorEq, if_false]
    omega
  · simp only [left, _hs, (hand_frame _ _ _ _).1, List.length_drop, if_pos, reduceCtorEq, if_false]
    omega

/-- Source: `HttpClientHandler::onPHPFinished`; `none` is the use of `php` when it points to
nothing. Kind: D -/
def onPHPFinished (s : HttpClientHandler) : Option HttpClientHandler :=
  if s.php then
    some { s with php := false, running := s.running - 1, state := .WAITING_FOR_REQUEST }
  else none

/-- What can happen to a connection: the next bytes that were sent arrive, or a script finishes.
Kind: D -/
inductive Event
  | readyRead (n : ℕ)
  | finished

/-- The state after an event; `sent` is all that is sent on the connection. Kind: D -/
def step (sent : List UInt8) : Option HttpClientHandler → Event → Option HttpClientHandler
  | none, _ => none
  | some s, .readyRead n =>
      let bs := (sent.drop s.received.length).take n
      some (readyToRead parse starts
        { s with client := s.client ++ bs, received := s.received ++ bs })
  | some s, .finished => if s.running = 0 then some s else s.onPHPFinished

end HttpClientHandler

/-! ### Headers -/

/-- A header: it ends with an empty line, and only there. Kind: D -/
structure Header (bs : List UInt8) : Prop where
  ends : emptyLine <:+ bs
  first : ∀ p, p <+: bs → emptyLine <:+ p → p = bs
  noNul : 0 ∉ bs

/-- The first line of bytes that end with a line end. Source: `TQSocket::canReadLine`,
`TQSocket::readLine`. Kind: L -/
theorem readLine_of_getLast {bs : List UInt8} (hne : bs ≠ []) (h : bs.getLast hne = 10)
    (rest : List UInt8) :
    ∃ line bs', bs = line ++ bs' ∧ line ≠ [] ∧ readLine (bs ++ rest) = some (line, bs' ++ rest) := by
  induction bs with
  | nil => exact absurd rfl hne
  | cons c cs ih =>
    by_cases hc : c = 10
    · refine ⟨[10], cs, by rw [hc]; rfl, by simp, ?_⟩
      rw [List.cons_append, readLine, if_pos hc]
    · have hcs : cs ≠ [] := by
        rintro rfl
        exact hc (by simpa using h)
      obtain ⟨line, bs', heq, -, hread⟩ := ih hcs (by rwa [List.getLast_cons hcs] at h)
      refine ⟨c :: line, bs', by rw [heq]; rfl, by simp, ?_⟩
      rw [List.cons_append, readLine, if_neg hc, hread]
      rfl

/-- A line is the front of what it is taken from. Source: `TQSocket::canReadLine`,
`TQSocket::readLine`. Kind: L -/
theorem readLine_eq {bs line rest : List UInt8} (h : readLine bs = some (line, rest)) :
    bs = line ++ rest ∧ line ≠ [] := by
  induction bs generalizing line with
  | nil => cases h
  | cons c cs ih =>
    rw [readLine] at h
    split_ifs at h with hc
    · obtain ⟨rfl, rfl⟩ := Prod.mk.inj (Option.some.inj h)
      exact ⟨by rw [hc]; rfl, by simp⟩
    · obtain ⟨⟨line', rest'⟩, hq, heq⟩ := Option.map_eq_some_iff.mp h
      obtain ⟨rfl, rfl⟩ := Prod.mk.inj heq
      obtain ⟨hcs, -⟩ := ih hq
      exact ⟨by rw [hcs]; rfl, by simp⟩

/-- Bytes without a null byte are a whole string. Source: `TQString::TQString(TQByteArray)`.
Kind: L -/
theorem cString_eq {bs : List UInt8} (h : 0 ∉ bs) : cString bs = bs := by
  rw [cString, List.takeWhile_eq_self_iff]
  intro c hc
  rw [decide_eq_true_iff]
  rintro rfl
  exact h hc

/-- A line that does not end the header is added to it. Source: `HttpClientHandler::readyToRead`.
Kind: L -/
theorem readHeader_line {client hdr line rest : List UInt8} (h : readLine client = some (line, rest))
    (hmore : ¬ emptyLine <:+ hdr ++ cString line) :
    readHeader client hdr = readHeader rest (hdr ++ cString line) := by
  rw [readHeader]
  split
  · rename_i hnone
    rw [h] at hnone
    cases hnone
  · rename_i hsome
    obtain ⟨rfl, rfl⟩ := Prod.mk.inj (Option.some.inj (h.symm.trans hsome))
    rw [if_neg hmore]

/-- A line that ends the header is the last one read. Source: `HttpClientHandler::readyToRead`.
Kind: L -/
theorem readHeader_end {client hdr line rest : List UInt8} (h : readLine client = some (line, rest))
    (hend : emptyLine <:+ hdr ++ cString line) :
    readHeader client hdr = (rest, hdr ++ cString line, true) := by
  rw [readHeader]
  split
  · rename_i hnone
    rw [h] at hnone
    cases hnone
  · rename_i hsome
    obtain ⟨rfl, rfl⟩ := Prod.mk.inj (Option.some.inj (h.symm.trans hsome))
    rw [if_pos hend]

/-- Without a whole line there is nothing to read. Source: `HttpClientHandler::readyToRead`.
Kind: L -/
theorem readHeader_none {client hdr : List UInt8} (h : readLine client = none) :
    readHeader client hdr = (client, hdr, false) := by
  rw [readHeader]
  split
  · rfl
  · rename_i hsome
    rw [h] at hsome
    cases hsome

/-- **A header that has arrived** is read to its end, and nothing behind it.
Source: `HttpClientHandler::readyToRead`. Kind: P -/
theorem readHeader_whole {header hdr bs : List UInt8} (h : Header header) (heq : header = hdr ++ bs)
    (hne : bs ≠ []) (rest : List UInt8) :
    readHeader (bs ++ rest) hdr = (rest, header, true) := by
  induction hn : bs.length using Nat.strong_induction_on generalizing bs hdr with
  | _ n ih =>
    have hlast : bs.getLast hne = 10 := by
      obtain ⟨front, hfront⟩ := h.ends
      have hl : header.getLast? = some 10 := by
        rw [← hfront, emptyLine]
        simp
      rw [heq, List.getLast?_append_of_ne_nil hdr hne, List.getLast?_eq_some_getLast hne] at hl
      exact Option.some.inj hl
    obtain ⟨line, bs', rfl, hline, hread⟩ := readLine_of_getLast hne hlast rest
    have hnul : cString line = line := by
      apply cString_eq
      intro h0
      exact h.noNul (by rw [heq]; simp [h0])
    by_cases hb : bs' = []
    · subst hb
      rw [List.append_nil] at heq
      rw [readHeader_end hread (hnul.symm ▸ heq ▸ h.ends), hnul, ← heq, List.nil_append]
    · have hmore : ¬ emptyLine <:+ hdr ++ cString line := by
        intro hend
        rw [hnul] at hend
        have hp : hdr ++ line <+: header := ⟨bs', by rw [heq, List.append_assoc]⟩
        have hsame := h.first _ hp hend
        rw [heq, ← List.append_assoc] at hsame
        exact hb (List.append_right_eq_self.mp hsame.symm)
      rw [readHeader_line hread hmore, hnul]
      have hlt : bs'.length < n := by
        rw [← hn, List.length_append]
        have := List.length_pos_of_ne_nil hline
        omega
      exact ih _ hlt (by rw [heq, List.append_assoc]) hb rfl

/-- **A header that has not arrived** is kept, as far as it is there.
Source: `HttpClientHandler::readyToRead`. Kind: P -/
theorem readHeader_part {header hdr bs more : List UInt8} (h : Header header)
    (heq : header = hdr ++ bs ++ more) (hne : more ≠ []) :
    ∃ rest hdr', readHeader bs hdr = (rest, hdr', false) ∧ hdr' ++ rest = hdr ++ bs := by
  induction hn : bs.length using Nat.strong_induction_on generalizing bs hdr with
  | _ n ih =>
    cases hread : readLine bs with
    | none => exact ⟨bs, hdr, readHeader_none hread, rfl⟩
    | some q =>
      obtain ⟨line, rest⟩ := q
      obtain ⟨rfl, hline⟩ := readLine_eq hread
      have hnul : cString line = line := by
        apply cString_eq
        intro h0
        exact h.noNul (by rw [heq]; simp [h0])
      have hmore : ¬ emptyLine <:+ hdr ++ cString line := by
        intro hend
        rw [hnul] at hend
        have hp : hdr ++ line <+: header :=
          ⟨rest ++ more, by rw [heq]; simp only [List.append_assoc]⟩
        have hsame := h.first _ hp hend
        rw [heq] at hsame
        have hlen := congrArg List.length hsame
        simp only [List.length_append] at hlen
        have hpos := List.length_pos_of_ne_nil hne
        omega
      rw [readHeader_line hread hmore, hnul]
      have hlt : rest.length < n := by
        rw [← hn, List.length_append]
        have hpos := List.length_pos_of_ne_nil hline
        omega
      have heq' : header = hdr ++ line ++ rest ++ more := by
        rw [heq]
        simp only [List.append_assoc]
      obtain ⟨rest', hdr', hr, happ⟩ := ih _ hlt heq' rfl
      exact ⟨rest', hdr', hr, by rw [happ]; simp only [List.append_assoc]⟩

end KTorrent.Web
