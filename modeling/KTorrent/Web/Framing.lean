import KTorrent.Util.Numeral
import KTorrent.Web.HttpClientHandler

/-!
# Requests and the bytes they come in

A sequence of requests is sent on one connection, cut into pieces anywhere, while scripts run and
finish.

* `HttpRequest` — a request as it is sent: a `GET` without a body, or a `POST` whose header gives the
  length of its body. An ill-formed one cannot be built.
* `Begins` — the connection holds the beginning of what has not been handed over.
* `Calm`, `Alone` — what the last bytes must not be, and which requests may start a script.
  `Event.Ok` — the condition on an event.
* `serves` — one call of `readyToRead` hands requests over in order; calm ones to the last.
* `framing_run` — so in every run each request is handed over once, in order, and all of them when
  everything came and no script runs.

Source: `plugins/webinterface/httpclienthandler.cpp`
-/

namespace KTorrent.Web

open KTorrent.Lib KTorrent.Util

section

variable {parse : List UInt8 → Method} {starts : ℕ → Bool}

/-- A request as it is sent. Kind: D -/
structure HttpRequest (parse : List UInt8 → Method) where
  header : List UInt8
  body : List UInt8
  wf : Header header
  kind : (parse header = .get ∧ body = []) ∨ parse header = .post (some body.length)

namespace HttpRequest

/-- What the server is handed. Kind: D -/
def entry (r : HttpRequest parse) : List UInt8 × List UInt8 := (r.header, r.body)

/-- What is sent. Kind: D -/
def bytes (r : HttpRequest parse) : List UInt8 := r.header ++ r.body

/-- Whether it asks for something only. Kind: D -/
def isGet (r : HttpRequest parse) : Bool := decide (parse r.header = .get)

/-- A header is not empty. Source: none: infrastructure. Kind: L -/
theorem header_ne_nil (r : HttpRequest parse) : r.header ≠ [] := by
  intro h
  obtain ⟨front, hfront⟩ := r.wf.ends
  rw [h, emptyLine] at hfront
  simp at hfront

/-- A request is not empty. Source: none: infrastructure. Kind: L -/
theorem bytes_ne_nil (r : HttpRequest parse) : r.bytes ≠ [] := by
  intro h
  exact r.header_ne_nil (List.append_eq_nil_iff.mp h).1

end HttpRequest

/-- All that is sent. Kind: D -/
def sendAll (rs : List (HttpRequest parse)) : List UInt8 := rs.flatMap HttpRequest.bytes

/-- How many of the requests are whole in their first `m` bytes. Kind: D -/
def complete : List (HttpRequest parse) → ℕ → ℕ
  | [], _ => 0
  | r :: rs, m => if r.bytes.length ≤ m then complete rs (m - r.bytes.length) + 1 else 0

/-- What the last `m` bytes of the requests must not be: behind a `GET` no further request is whole,
and behind a `POST` of length 0 there is a byte, unless its header was read before (`waiting`).
Kind: D -/
def Calm : Bool → List (HttpRequest parse) → ℕ → Prop
  | _, [], _ => True
  | waiting, r :: rs, m =>
      r.bytes.length ≤ m →
        if r.isGet then complete rs (m - r.bytes.length) = 0
        else (waiting = false → r.body = [] → r.bytes.length < m) ∧
          Calm false rs (m - r.bytes.length)

/-- Of the requests that are whole in `m` bytes, up to the first `GET`, none starts a script while
one runs. Kind: D -/
def Alone (starts : ℕ → Bool) : ℕ → ℕ → List (HttpRequest parse) → ℕ → Prop
  | _, _, [], _ => True
  | running, k, r :: rs, m =>
      r.bytes.length ≤ m →
        (starts k = true → running = 0) ∧
          (r.isGet = false →
            Alone starts (running + if starts k then 1 else 0) (k + 1) rs (m - r.bytes.length))

namespace HttpClientHandler

/-- The bytes that came of requests that have not been handed over. Kind: D -/
def begun (s : HttpClientHandler) : List UInt8 :=
  match s.state with
  | .WAITING_FOR_REQUEST => s.header_data ++ s.client
  | .WAITING_FOR_CONTENT => s.header_data ++ (s.request_data ++ s.client)
  | .PROCESSING_PHP => s.client

/-- What has been read of the first request. Kind: D -/
def Shape (qs : List (HttpRequest parse)) (s : HttpClientHandler) : Prop :=
  match s.state, qs with
  | .WAITING_FOR_REQUEST, [] => s.header_data = []
  | .WAITING_FOR_REQUEST, r :: _ => ∃ more, more ≠ [] ∧ r.header = s.header_data ++ more
  | .WAITING_FOR_CONTENT, [] => False
  | .WAITING_FOR_CONTENT, r :: _ => r.isGet = false ∧ s.header_data = r.header ∧
      s.contentLength = r.body.length ∧ s.request_data <+: r.body
  | .PROCESSING_PHP, _ => s.header_data = []

/-- The connection holds the beginning of the requests. Kind: D -/
structure Begins (qs : List (HttpRequest parse)) (s : HttpClientHandler) : Prop where
  front : s.begun <+: sendAll qs
  shape : Shape qs s

/-- The scripts that run: `php` points to the only one, and there is one while it is waited for.
Kind: D -/
structure Lone (s : HttpClientHandler) : Prop where
  running : s.running = if s.php then 1 else 0
  busy : s.state = .PROCESSING_PHP → s.php = true

/-! ### The branches of `readyToRead` -/

/-- Only a part of a header has arrived. Source: `HttpClientHandler::readyToRead`. Kind: L -/
theorem readyToRead_part {s : HttpClientHandler} (hs : s.state = .WAITING_FOR_REQUEST)
    {rest hdr : List UInt8} (h : readHeader s.client s.header_data = (rest, hdr, false)) :
    readyToRead parse starts s = { s with client := rest, header_data := hdr } := by
  rw [readyToRead]
  split
  · split
    · rename_i heq
      rw [h] at heq
      cases heq
      rfl
    · rename_i heq
      rw [h] at heq
      cases heq
  · rename_i hs'
    rw [hs] at hs'
    cases hs'
  · rename_i hs'
    rw [hs] at hs'
    cases hs'

/-- The header of a request without content is complete. Source: `HttpClientHandler::readyToRead`.
Kind: L -/
theorem readyToRead_get {s : HttpClientHandler} (hs : s.state = .WAITING_FOR_REQUEST)
    {rest hdr : List UInt8} (h : readHeader s.client s.header_data = (rest, hdr, true))
    (hp : parse hdr = .get) :
    readyToRead parse starts s =
      { hand starts hdr [] { s with client := rest } with
        header_data := [], request_data := [] } := by
  rw [readyToRead]
  split
  · split
    · rename_i heq
      rw [h] at heq
      cases heq
    · rename_i heq
      rw [h] at heq
      cases heq
      rw [hp]
  · rename_i hs'
    rw [hs] at hs'
    cases hs'
  · rename_i hs'
    rw [hs] at hs'
    cases hs'

/-- The header of one with content is complete. Source: `HttpClientHandler::readyToRead`. Kind: L -/
theorem readyToRead_post {s : HttpClientHandler} (hs : s.state = .WAITING_FOR_REQUEST)
    {rest hdr : List UInt8} (h : readHeader s.client s.header_data = (rest, hdr, true)) {n : ℕ}
    (hp : parse hdr = .post (some n)) :
    readyToRead parse starts s =
      if rest = [] then
        { s with
          client := rest
          header_data := hdr
          contentLength := n
          request_data := []
          state := .WAITING_FOR_CONTENT }
      else readyToRead parse starts
        { s with
          client := rest
          header_data := hdr
          contentLength := n
          request_data := []
          state := .WAITING_FOR_CONTENT } := by
  rw [readyToRead]
  split
  · split
    · rename_i heq
      rw [h] at heq
      cases heq
    · rename_i heq
      rw [h] at heq
      cases heq
      rw [hp]
  · rename_i hs'
    rw [hs] at hs'
    cases hs'
  · rename_i hs'
    rw [hs] at hs'
    cases hs'

/-- Content arrives. Source: `HttpClientHandler::readyToRead`. Kind: L -/
theorem readyToRead_content {s : HttpClientHandler} (hs : s.state = .WAITING_FOR_CONTENT) :
    readyToRead parse starts s =
      if (s.client.length + s.request_data.length) % 2 ^ 32 < s.contentLength then
        { s with client := [], request_data := s.request_data ++ s.client }
      else
        let n := s.contentLength - s.request_data.length
        let s' := { hand starts s.header_data (s.request_data ++ s.client.take n)
            { s with client := s.client.drop n } with
          header_data := []
          request_data := []
          state := .WAITING_FOR_REQUEST }
        if s.client.drop n = [] then s' else readyToRead parse starts s' := by
  rw [readyToRead]
  split
  · rename_i hs'
    rw [hs] at hs'
    cases hs'
  · rfl
  · rename_i hs'
    rw [hs] at hs'
    cases hs'

/-- While a page is made nothing is read. Source: `HttpClientHandler::readyToRead`. Kind: L -/
theorem readyToRead_php {s : HttpClientHandler} (hs : s.state = .PROCESSING_PHP) :
    readyToRead parse starts s = s := by
  rw [readyToRead]
  split
  · rename_i hs'
    rw [hs] at hs'
    cases hs'
  · rename_i hs'
    rw [hs] at hs'
    cases hs'
  · rfl

/-! ### One call of `readyToRead` -/

/-- The first `c` requests were handed over. Kind: D -/
structure Took (starts : ℕ → Bool) (qs : List (HttpRequest parse)) (c : ℕ)
    (s s' : HttpClientHandler) : Prop where
  handed : s'.handed = s.handed ++ (qs.take c).map HttpRequest.entry
  begins : Begins (qs.drop c) s'
  received : s'.received = s.received
  begun : s.begun = sendAll (qs.take c) ++ s'.begun
  lone : s.Lone → Alone starts s.running s.handed.length qs s.begun.length → s'.Lone

/-- Bytes that are the front of two parts. Source: `plugins/webinterface/httpclienthandler.cpp`.
Kind: L -/
theorem prefix_append_cases {l x r : List UInt8} (h : l <+: x ++ r) :
    (∃ more, more ≠ [] ∧ x = l ++ more) ∨ ∃ v, l = x ++ v ∧ v <+: r := by
  rcases List.prefix_or_prefix_of_prefix h (List.prefix_append x r) with ⟨more, rfl⟩ | ⟨v, rfl⟩
  · by_cases hm : more = []
    · right
      exact ⟨[], by rw [hm]; simp, List.nil_prefix⟩
    · exact .inl ⟨more, hm, rfl⟩
  · exact .inr ⟨v, rfl, (List.prefix_append_right_inj x).mp h⟩

/-- Nothing sent completes no request. Source: `plugins/webinterface/httpclienthandler.cpp`.
Kind: L -/
theorem complete_zero (qs : List (HttpRequest parse)) : complete qs 0 = 0 := by
  cases qs with
  | nil => rfl
  | cons r qs =>
    have hpos := List.length_pos_of_ne_nil r.bytes_ne_nil
    rw [complete, if_neg (by omega)]

/-- A request that is not whole. Source: `plugins/webinterface/httpclienthandler.cpp`. Kind: L -/
theorem complete_part {r : HttpRequest parse} {qs : List (HttpRequest parse)} {m : ℕ}
    (h : m < r.bytes.length) : complete (r :: qs) m = 0 := by
  rw [complete, if_neg (not_le.mpr h)]

/-- A request's bytes are its header and its body.
Source: `plugins/webinterface/httpclienthandler.cpp`. Kind: L -/
theorem length_bytes (r : HttpRequest parse) : r.bytes.length = r.header.length + r.body.length :=
  List.length_append

/-- Handing over a request, and then `c` more. Source: none: infrastructure. Kind: L -/
theorem Took.cons {r : HttpRequest parse} {qs : List (HttpRequest parse)} {c : ℕ}
    {s s₁ s' : HttpClientHandler} (hhanded : s₁.handed = s.handed ++ [r.entry])
    (hreceived : s₁.received = s.received) (hbegun : s.begun = r.bytes ++ s₁.begun)
    (hrunning : s₁.running = s.running + if starts s.handed.length then 1 else 0)
    (hphp : s₁.php = (s.php || starts s.handed.length))
    (hbusy : s₁.state = .PROCESSING_PHP → starts s.handed.length = true) (h : Took starts qs c s₁ s')
    (hmore : s₁.Lone → (r.isGet = false →
      Alone starts s₁.running s₁.handed.length qs s₁.begun.length) → s'.Lone) :
    Took starts (r :: qs) (c + 1) s s' := by
  refine ⟨?_, h.begins, h.received.trans hreceived, ?_, fun hlone halone => ?_⟩
  · rw [h.handed, hhanded, List.take_succ_cons, List.map_cons, List.append_assoc]
    rfl
  · rw [hbegun, h.begun, List.take_succ_cons]
    simp only [sendAll, List.flatMap_cons, List.append_assoc]
  · have hlen : s₁.handed.length = s.handed.length + 1 := by
      rw [hhanded, List.length_append, List.length_singleton]
    have hm : s.begun.length = r.bytes.length + s₁.begun.length := by
      rw [hbegun, List.length_append]
    obtain ⟨hfree, htail⟩ := halone (by rw [hm]; exact Nat.le_add_right _ _)
    rw [hm, Nat.add_sub_cancel_left, ← hrunning, ← hlen] at htail
    refine hmore ⟨?_, fun hst => ?_⟩ htail
    · -- the request itself starts a script only when none runs
      rw [hrunning, hphp]
      cases hst : starts s.handed.length with
      | false => simpa using hlone.running
      | true => simp [hfree hst]
    · rw [hphp, hbusy hst, Bool.or_true]

/-- Nothing is handed over. Source: `plugins/webinterface/httpclienthandler.cpp`. Kind: L -/
theorem took_zero {qs : List (HttpRequest parse)} {s s' : HttpClientHandler}
    (hhanded : s'.handed = s.handed) (hbegins : Begins qs s') (hreceived : s'.received = s.received)
    (hbegun : s.begun = s'.begun) (hrunning : s'.running = s.running) (hphp : s'.php = s.php)
    (hbusy : s'.state = .PROCESSING_PHP → s.state = .PROCESSING_PHP) :
    Took starts qs 0 s s' := by
  refine ⟨by rw [hhanded]; simp, hbegins, hreceived, by rw [hbegun]; rfl, fun hlone _ => ?_⟩
  refine ⟨by rw [hrunning, hphp]; exact hlone.running, fun hst => ?_⟩
  rw [hphp]
  exact hlone.busy (hbusy hst)

/-- What the server makes of the scripts. Source: `HttpServer::handleGet`, `HttpServer::handlePost`.
Kind: L -/
theorem hand_scripts (starts : ℕ → Bool) (header body : List UInt8) (s : HttpClientHandler) :
    (hand starts header body s).running = s.running + (if starts s.handed.length then 1 else 0) ∧
      (hand starts header body s).php = (s.php || starts s.handed.length) ∧
      (hand starts header body s).state =
        if starts s.handed.length then .PROCESSING_PHP else s.state := by
  unfold hand
  cases hst : starts s.handed.length with
  | false => simp
  | true => simp

/-- A connection that has just handed a request over.
Source: `plugins/webinterface/httpclienthandler.cpp`. Kind: L -/
theorem begins_next {qs : List (HttpRequest parse)} {s : HttpClientHandler}
    (hs : s.state ≠ .WAITING_FOR_CONTENT) (hdr : s.header_data = []) (h : s.client <+: sendAll qs) :
    Begins qs s ∧ s.begun = s.client := by
  have hbegun : s.begun = s.client := by
    unfold begun
    cases hst : s.state with
    | WAITING_FOR_REQUEST =>
      show s.header_data ++ s.client = s.client
      rw [hdr]
      rfl
    | WAITING_FOR_CONTENT => exact absurd hst hs
    | PROCESSING_PHP => rfl
  refine ⟨⟨hbegun ▸ h, ?_⟩, hbegun⟩
  unfold Shape
  cases hst : s.state with
  | WAITING_FOR_REQUEST =>
    cases qs with
    | nil => exact hdr
    | cons r qs => exact ⟨r.header, r.header_ne_nil, by rw [hdr]; rfl⟩
  | WAITING_FOR_CONTENT => exact absurd hst hs
  | PROCESSING_PHP => exact hdr

/-- What a call of `readyToRead` does with the requests `qs`: it hands some over, and if they are calm
every one that is whole. Kind: D -/
def Serves (starts : ℕ → Bool) (qs : List (HttpRequest parse)) : Prop :=
  ∀ s : HttpClientHandler, Begins qs s → s.client.length + s.request_data.length < 2 ^ 32 →
    s.state ≠ .PROCESSING_PHP →
    ∃ c, Took starts qs c s (readyToRead parse starts s) ∧
      (Calm (decide (s.state = .WAITING_FOR_CONTENT)) qs s.begun.length →
        c = complete qs s.begun.length)

/-- The call, when a body is waited for. Source: `plugins/webinterface/httpclienthandler.cpp`.
Kind: L -/
theorem serve_content {r : HttpRequest parse} {qs : List (HttpRequest parse)}
    (ih : Serves starts qs) {s : HttpClientHandler} (h : Begins (r :: qs) s)
    (hsmall : s.client.length + s.request_data.length < 2 ^ 32)
    (hs : s.state = .WAITING_FOR_CONTENT) (waiting : Bool) :
    ∃ c, Took starts (r :: qs) c s (readyToRead parse starts s) ∧
      (Calm waiting (r :: qs) s.begun.length → c = complete (r :: qs) s.begun.length) := by
  have hshape := h.shape
  unfold Shape at hshape
  rw [hs] at hshape
  obtain ⟨hget, hdr, hlen, z, hz⟩ := hshape
  have hbegun : s.begun = r.header ++ (s.request_data ++ s.client) := by
    unfold begun
    rw [hs, ← hdr]
  have hclient : s.client <+: z ++ sendAll qs := by
    have hfront := h.front
    rw [hbegun, sendAll, List.flatMap_cons, HttpRequest.bytes, ← hz, List.append_assoc,
      List.append_assoc] at hfront
    exact (List.prefix_append_right_inj _).mp ((List.prefix_append_right_inj _).mp hfront)
  have hbody : r.body.length = s.request_data.length + z.length := by
    rw [← hz, List.length_append]
  rw [readyToRead_content hs, Nat.mod_eq_of_lt hsmall]
  rcases prefix_append_cases hclient with ⟨more, hmore, rfl⟩ | ⟨v, hv, hrest⟩
  · -- the body is not there yet
    have hpos := List.length_pos_of_ne_nil hmore
    rw [List.length_append] at hbody
    have hpart : s.begun.length < r.bytes.length := by
      rw [hbegun, length_bytes]
      simp only [List.length_append]
      omega
    rw [if_pos (by rw [hlen]; omega), complete_part hpart]
    have hsame : s.begun = r.header ++ ((s.request_data ++ s.client) ++ []) := by
      rw [hbegun, List.append_nil]
    refine ⟨0, took_zero rfl ⟨?_, ?_⟩ rfl ?_ rfl rfl id, fun _ => rfl⟩
    · have hfront := h.front
      rw [hsame] at hfront
      simpa only [begun, hs, hdr] using hfront
    · unfold Shape
      simp only [hs]
      exact ⟨hget, hdr, hlen, more, by rw [← hz, List.append_assoc]⟩
    · rw [hsame]
      simp only [begun, hs, hdr]
  · -- the body is whole, and `v` follows it
    have hn : s.contentLength - s.request_data.length = z.length := by omega
    have htake : s.client.take z.length = z := by rw [hv, List.take_left]
    have hdrop : s.client.drop z.length = v := by rw [hv, List.drop_left]
    have hvlen : s.client.length = z.length + v.length := by rw [hv, List.length_append]
    rw [if_neg (by omega)]
    simp only [hn, htake, hdrop, hz]
    have hwhole : s.begun = r.bytes ++ v := by
      rw [hbegun, hv, ← List.append_assoc s.request_data, hz, HttpRequest.bytes, List.append_assoc]
    have hm : s.begun.length - r.bytes.length = v.length := by
      rw [hwhole, List.length_append, Nat.add_sub_cancel_left]
    have hle : r.bytes.length ≤ s.begun.length := by
      rw [hwhole, List.length_append]
      exact Nat.le_add_right _ _
    rw [complete, if_pos hle, hm]
    obtain ⟨hc, -, -, hrec, hhanded⟩ := hand_frame starts s.header_data r.body { s with client := v }
    obtain ⟨hrun, hphp, -⟩ := hand_scripts starts s.header_data r.body { s with client := v }
    generalize hs₁ : { hand starts s.header_data r.body { s with client := v } with
      header_data := [], request_data := [], state := ClientState.WAITING_FOR_REQUEST } = s₁
    have hst₁ : s₁.state = .WAITING_FOR_REQUEST := by rw [← hs₁]
    have hdr₁ : s₁.header_data = [] := by rw [← hs₁]
    have hreq₁ : s₁.request_data = [] := by rw [← hs₁]
    have hcl₁ : s₁.client = v := by
      rw [← hs₁]
      exact hc
    obtain ⟨hbegins, hbegun₁⟩ := begins_next (by rw [hst₁]; decide) hdr₁ (hcl₁.symm ▸ hrest)
    rw [hcl₁] at hbegun₁
    have hcons : ∀ {c : ℕ} {s' : HttpClientHandler}, Took starts qs c s₁ s' →
        Took starts (r :: qs) (c + 1) s s' := by
      intro c s' htook
      refine htook.cons ?_ ?_ ?_ ?_ ?_ ?_ fun hlone hmore => htook.lone hlone (hmore hget)
      · rw [← hs₁]
        show (hand starts s.header_data r.body _).handed = _
        rw [hhanded, hdr]
        rfl
      · rw [← hs₁]
        exact hrec
      · rw [hwhole, hbegun₁]
      · rw [← hs₁]
        exact hrun
      · rw [← hs₁]
        exact hphp
      · intro hbusy
        rw [hst₁] at hbusy
        cases hbusy
    have hcalm : Calm waiting (r :: qs) s.begun.length → Calm false qs v.length := by
      intro hcalm
      have htail := hcalm hle
      rw [hget, if_neg Bool.false_ne_true, hm] at htail
      exact htail.2
    by_cases hv0 : v = []
    · rw [if_pos hv0, hv0, List.length_nil, complete_zero]
      exact ⟨1, hcons (took_zero rfl hbegins rfl rfl rfl rfl id), fun _ => rfl⟩
    · rw [if_neg hv0]
      obtain ⟨c, htook, hall⟩ := ih s₁ hbegins (by rw [hcl₁, hreq₁, List.length_nil]; omega)
        (by rw [hst₁]; decide)
      rw [hbegun₁, hst₁] at hall
      exact ⟨c + 1, hcons htook, fun h => congrArg (· + 1) (hall (hcalm h))⟩

/-- The call, when a header is read and is not there yet.
Source: `plugins/webinterface/httpclienthandler.cpp`. Kind: L -/
theorem serve_part {r : HttpRequest parse} {qs : List (HttpRequest parse)} {s : HttpClientHandler}
    (h : Begins (r :: qs) s) (hs : s.state = .WAITING_FOR_REQUEST) {more : List UInt8}
    (hmore : more ≠ []) (hheader : r.header = s.header_data ++ (s.client ++ more)) :
    ∃ c, Took starts (r :: qs) c s (readyToRead parse starts s) ∧
      (Calm false (r :: qs) s.begun.length → c = complete (r :: qs) s.begun.length) := by
  have hbegun : s.begun = s.header_data ++ s.client := by
    unfold begun
    rw [hs]
  rw [← List.append_assoc] at hheader
  obtain ⟨rest, hdr', hread, hsame⟩ := readHeader_part r.wf hheader hmore
  have hpos := List.length_pos_of_ne_nil hmore
  have hpart : s.begun.length < r.bytes.length := by
    rw [hbegun, length_bytes, hheader]
    simp only [List.length_append]
    omega
  rw [readyToRead_part hs hread, complete_part hpart]
  have hbegun' : begun { s with client := rest, header_data := hdr' } = s.begun := by
    rw [hbegun, ← hsame]
    simp only [begun, hs]
  refine ⟨0, took_zero rfl ⟨?_, ?_⟩ rfl hbegun'.symm rfl rfl id, fun _ => rfl⟩
  · rw [hbegun']
    exact h.front
  · unfold Shape
    simp only [hs]
    refine ⟨rest ++ more, ?_, ?_⟩
    · simp [hmore]
    · rw [hheader, ← hsame, List.append_assoc]

/-- The call, when the header of a `GET` is there: what is behind it stays.
Source: `plugins/webinterface/httpclienthandler.cpp`. Kind: L -/
theorem serve_get {r : HttpRequest parse} {qs : List (HttpRequest parse)} {s : HttpClientHandler}
    (hs : s.state = .WAITING_FOR_REQUEST) {v : List UInt8}
    (hread : readHeader s.client s.header_data = (v, r.header, true))
    (hwhole : s.begun = r.header ++ v) (hrest : v <+: r.body ++ sendAll qs)
    (hget : parse r.header = .get) (hbody : r.body = []) :
    ∃ c, Took starts (r :: qs) c s (readyToRead parse starts s) ∧
      (Calm false (r :: qs) s.begun.length → c = complete (r :: qs) s.begun.length) := by
  have hisGet : r.isGet = true := decide_eq_true hget
  have hbytes : r.bytes = r.header := by rw [HttpRequest.bytes, hbody, List.append_nil]
  have hle : r.bytes.length ≤ s.begun.length := by
    rw [hwhole, hbytes, List.length_append]
    exact Nat.le_add_right _ _
  rw [hbody, List.nil_append] at hrest
  rw [readyToRead_get hs hread hget]
  obtain ⟨hc, -, -, hrec, hhanded⟩ := hand_frame starts r.header [] { s with client := v }
  obtain ⟨hrun, hphp, hstate⟩ := hand_scripts starts r.header [] { s with client := v }
  generalize hs₁ : { hand starts r.header [] { s with client := v } with
    header_data := [], request_data := [] } = s₁
  have hst₁ : s₁.state =
      if starts s.handed.length then .PROCESSING_PHP else .WAITING_FOR_REQUEST := by
    rw [← hs₁, ← hs]
    exact hstate
  have hcl₁ : s₁.client = v := by
    rw [← hs₁]
    exact hc
  obtain ⟨hbegins, hbegun₁⟩ := begins_next (by rw [hst₁]; split_ifs <;> simp)
    (by rw [← hs₁]) (hcl₁.symm ▸ hrest)
  rw [hcl₁] at hbegun₁
  have htook : Took starts qs 0 s₁ s₁ := took_zero rfl hbegins rfl rfl rfl rfl id
  refine ⟨1, htook.cons ?_ ?_ ?_ ?_ ?_ ?_ fun hlone _ => hlone, fun hcalm => ?_⟩
  · rw [← hs₁]
    show (hand starts r.header [] _).handed = _
    rw [hhanded, HttpRequest.entry, hbody]
  · rw [← hs₁]
    exact hrec
  · rw [hwhole, hbegun₁, hbytes]
  · rw [← hs₁]
    exact hrun
  · rw [← hs₁]
    exact hphp
  · intro hbusy
    rw [hst₁] at hbusy
    by_contra hno
    rw [if_neg hno] at hbusy
    cases hbusy
  · have hnone := hcalm hle
    rw [hisGet, if_pos rfl] at hnone
    rw [complete, if_pos hle, hnone]

/-- The call, when the header of a `POST` is there: its body is waited for.
Source: `plugins/webinterface/httpclienthandler.cpp`. Kind: L -/
theorem serve_post {r : HttpRequest parse} {qs : List (HttpRequest parse)}
    (ih : Serves starts qs) {s : HttpClientHandler} (h : Begins (r :: qs) s)
    (hsmall : s.client.length + s.request_data.length < 2 ^ 32)
    (hs : s.state = .WAITING_FOR_REQUEST) {x v : List UInt8} (hv : s.client = x ++ v)
    (hread : readHeader s.client s.header_data = (v, r.header, true))
    (hwhole : s.begun = r.header ++ v) (hpost : parse r.header = .post (some r.body.length)) :
    ∃ c, Took starts (r :: qs) c s (readyToRead parse starts s) ∧
      (Calm false (r :: qs) s.begun.length → c = complete (r :: qs) s.begun.length) := by
  have hnot : r.isGet = false := by
    apply decide_eq_false
    rw [hpost]
    simp
  rw [readyToRead_post hs hread hpost]
  generalize hs₁ : { s with
    client := v, header_data := r.header, contentLength := r.body.length, request_data := [],
    state := ClientState.WAITING_FOR_CONTENT } = s₁
  have hst₁ : s₁.state = .WAITING_FOR_CONTENT := by rw [← hs₁]
  have hbegun₁ : s₁.begun = s.begun := by
    rw [hwhole, ← hs₁]
    rfl
  have hbegins : Begins (r :: qs) s₁ := by
    refine ⟨hbegun₁ ▸ h.front, ?_⟩
    unfold Shape
    rw [hst₁, ← hs₁]
    exact ⟨hnot, rfl, rfl, List.nil_prefix⟩
  by_cases hv0 : v = []
  · rw [if_pos hv0]
    refine ⟨0, took_zero (by rw [← hs₁]) hbegins (by rw [← hs₁]) hbegun₁.symm (by rw [← hs₁])
      (by rw [← hs₁]) fun hbusy => ?_, fun hcalm => ?_⟩
    · rw [hst₁] at hbusy
      cases hbusy
    · have hpart : s.begun.length < r.bytes.length := by
        by_contra hle
        have hle' := not_lt.mp hle
        have hmore := hcalm hle'
        rw [hnot, if_neg Bool.false_ne_true] at hmore
        rw [hwhole, hv0, List.append_nil, length_bytes] at hle' hmore
        have hb : r.body = [] := List.eq_nil_of_length_eq_zero (by omega)
        have hlt := hmore.1 rfl hb
        omega
      exact (complete_part hpart).symm
  · rw [if_neg hv0]
    have hsmall₁ : s₁.client.length + s₁.request_data.length < 2 ^ 32 := by
      rw [← hs₁]
      have hlen := congrArg List.length hv
      rw [List.length_append] at hlen
      show v.length + 0 < 2 ^ 32
      omega
    obtain ⟨c, htook, hall⟩ := serve_content ih hbegins hsmall₁ hst₁ false
    rw [hbegun₁] at hall
    refine ⟨c, ⟨by rw [htook.handed, ← hs₁], htook.begins, by rw [htook.received, ← hs₁],
      by rw [← htook.begun, hbegun₁], fun hlone halone => ?_⟩, hall⟩
    apply htook.lone
    · refine ⟨by rw [← hs₁]; exact hlone.running, fun hbusy => ?_⟩
      rw [hst₁] at hbusy
      cases hbusy
    · rw [hbegun₁, ← hs₁]
      exact halone

/-- The call, when a header is read. Source: `plugins/webinterface/httpclienthandler.cpp`.
Kind: L -/
theorem serve_request {r : HttpRequest parse} {qs : List (HttpRequest parse)}
    (ih : Serves starts qs) {s : HttpClientHandler} (h : Begins (r :: qs) s)
    (hsmall : s.client.length + s.request_data.length < 2 ^ 32)
    (hs : s.state = .WAITING_FOR_REQUEST) :
    ∃ c, Took starts (r :: qs) c s (readyToRead parse starts s) ∧
      (Calm false (r :: qs) s.begun.length → c = complete (r :: qs) s.begun.length) := by
  have hshape := h.shape
  unfold Shape at hshape
  rw [hs] at hshape
  obtain ⟨x, hx, hheader⟩ := hshape
  have hbegun : s.begun = s.header_data ++ s.client := by
    unfold begun
    rw [hs]
  have hclient : s.client <+: x ++ (r.body ++ sendAll qs) := by
    have hfront := h.front
    rw [hbegun, sendAll, List.flatMap_cons, HttpRequest.bytes, hheader, List.append_assoc,
      List.append_assoc] at hfront
    exact (List.prefix_append_right_inj _).mp hfront
  rcases prefix_append_cases hclient with ⟨more, hmore, rfl⟩ | ⟨v, hv, hrest⟩
  · exact serve_part h hs hmore hheader
  · have hread : readHeader s.client s.header_data = (v, r.header, true) := by
      rw [hv]
      exact readHeader_whole r.wf hheader hx v
    have hwhole : s.begun = r.header ++ v := by
      rw [hbegun, hv, hheader, List.append_assoc]
    rcases r.kind with ⟨hget, hbody⟩ | hpost
    · exact serve_get hs hread hwhole hrest hget hbody
    · exact serve_post ih h hsmall hs hv hread hwhole hpost

/-- **One call of `readyToRead`** hands requests over in order, and if they are calm every one that
is whole. Source: `plugins/webinterface/httpclienthandler.cpp`. Kind: P -/
theorem serves (starts : ℕ → Bool) (qs : List (HttpRequest parse)) : Serves starts qs := by
  induction qs with
  | nil =>
    intro s h _ hs
    have hfront : s.begun = [] := List.prefix_nil.mp h.front
    have hshape := h.shape
    cases hst : s.state with
    | WAITING_FOR_REQUEST =>
      have hclient : s.client = [] := by
        rw [begun, hst] at hfront
        exact (List.append_eq_nil_iff.mp hfront).2
      have hread : readHeader s.client s.header_data = (s.client, s.header_data, false) := by
        rw [hclient, readHeader]
        rfl
      rw [readyToRead_part hst hread]
      exact ⟨0, took_zero rfl h rfl rfl rfl rfl id, fun _ => rfl⟩
    | WAITING_FOR_CONTENT =>
      unfold Shape at hshape
      rw [hst] at hshape
      exact absurd hshape not_false
    | PROCESSING_PHP => exact absurd hst hs
  | cons r qs ih =>
    intro s h hsmall hs
    cases hst : s.state with
    | WAITING_FOR_REQUEST => exact serve_request ih h hsmall hst
    | WAITING_FOR_CONTENT => exact serve_content ih h hsmall hst true
    | PROCESSING_PHP => exact absurd hst hs

/-! ### Runs -/

/-- What keeps a connection going: the first requests were handed over, it holds the beginning of the
others, and none is left when everything came and no script runs. Kind: D -/
structure Framed (rs : List (HttpRequest parse)) (s : HttpClientHandler) : Prop where
  handed : s.handed = (rs.take s.handed.length).map HttpRequest.entry
  begins : Begins (rs.drop s.handed.length) s
  received : s.received = sendAll (rs.take s.handed.length) ++ s.begun
  lone : s.Lone
  all : s.received = sendAll rs → s.running = 0 → s.handed = rs.map HttpRequest.entry

/-- What is still to come of the requests: what has been begun and the next `n` bytes. Kind: D -/
def pending (rs : List (HttpRequest parse)) (n : ℕ) (s : HttpClientHandler) : ℕ :=
  s.begun.length + ((sendAll rs).drop s.received.length |>.take n).length

/-- The condition on an event. While no script is waited for, what the socket and the buffer hold is
counted in 32 bits, no request starts a script while one runs, and with the last bytes come requests
that are calm. A script does not finish while a body is waited for, nor when everything came and not
everything was handed over. Kind: D -/
def Event.Ok (starts : ℕ → Bool) (rs : List (HttpRequest parse)) :
    Option HttpClientHandler → Event → Prop
  | none, _ => True
  | some s, .readyRead n =>
      s.state ≠ .PROCESSING_PHP →
        s.client.length + ((sendAll rs).drop s.received.length |>.take n).length +
            s.request_data.length < 2 ^ 32 ∧
          Alone starts s.running s.handed.length (rs.drop s.handed.length) (pending rs n s) ∧
          ((sendAll rs).length ≤ s.received.length + n →
            Calm (decide (s.state = .WAITING_FOR_CONTENT)) (rs.drop s.handed.length)
              (pending rs n s))
  | some s, .finished =>
      s.running ≠ 0 → s.state ≠ .WAITING_FOR_CONTENT ∧
        (s.received = sendAll rs → s.handed.length = rs.length)

/-- All bytes complete all requests. Source: `plugins/webinterface/httpclienthandler.cpp`.
Kind: L -/
theorem complete_sendAll (qs : List (HttpRequest parse)) :
    complete qs (sendAll qs).length = qs.length := by
  induction qs with
  | nil => rfl
  | cons r qs ih =>
    have hlen : (sendAll (r :: qs)).length = r.bytes.length + (sendAll qs).length := by
      rw [sendAll, List.flatMap_cons, List.length_append, sendAll]
    rw [complete, hlen, if_pos (Nat.le_add_right _ _), Nat.add_sub_cancel_left, ih, List.length_cons]

/-- Requests are sent one after the other. Source: none: infrastructure. Kind: L -/
theorem sendAll_append (qs qs' : List (HttpRequest parse)) :
    sendAll (qs ++ qs') = sendAll qs ++ sendAll qs' := List.flatMap_append

/-- Bytes that arrive. Source: `plugins/webinterface/httpclienthandler.cpp`. Kind: L -/
theorem begun_arrive (s : HttpClientHandler) (bs rec : List UInt8) :
    begun { s with client := s.client ++ bs, received := rec } = s.begun ++ bs := by
  unfold begun
  cases s.state <;> simp only [List.append_assoc]

/-- The next bytes of what is sent follow what has been begun.
Source: `plugins/webinterface/httpclienthandler.cpp`. Kind: L -/
theorem Framed.next {rs : List (HttpRequest parse)} {s : HttpClientHandler} (h : Framed rs s)
    (n : ℕ) :
    s.begun ++ ((sendAll rs).drop s.received.length).take n <+:
      sendAll (rs.drop s.handed.length) := by
  obtain ⟨rest, hrest⟩ := h.begins.front
  have hall : sendAll rs = s.received ++ rest := by
    rw [h.received, List.append_assoc, hrest, ← sendAll_append, List.take_append_drop]
  rw [hall, List.drop_left, ← hrest]
  exact (List.prefix_append_right_inj _).mpr (List.take_prefix n rest)

/-- No more requests are handed on than were sent.
Source: `plugins/webinterface/httpclienthandler.cpp`. Kind: L -/
theorem Framed.le {rs : List (HttpRequest parse)} {s : HttpClientHandler} (h : Framed rs s) :
    s.handed.length ≤ rs.length := by
  have hlen := congrArg List.length h.handed
  rw [List.length_map, List.length_take] at hlen
  omega

/-- What has been received are the first bytes.
Source: `plugins/webinterface/httpclienthandler.cpp`. Kind: L -/
theorem Framed.prefix_received {rs : List (HttpRequest parse)} {s : HttpClientHandler}
    (h : Framed rs s) : s.received <+: sendAll rs := by
  obtain ⟨rest, hrest⟩ := h.begins.front
  refine ⟨rest, ?_⟩
  rw [h.received, List.append_assoc, hrest, ← sendAll_append, List.take_append_drop]

/-- The requests that were handed over are those in front.
Source: `plugins/webinterface/httpclienthandler.cpp`. Kind: L -/
theorem framed_of_split {front qs : List (HttpRequest parse)} {s : HttpClientHandler}
    (hhanded : s.handed = front.map HttpRequest.entry) (hbegins : Begins qs s)
    (hreceived : s.received = sendAll front ++ s.begun) (hlone : s.Lone)
    (hall : s.received = sendAll (front ++ qs) → s.running = 0 → qs = []) :
    Framed (front ++ qs) s := by
  have hlen : s.handed.length = front.length := by rw [hhanded, List.length_map]
  have htake : (front ++ qs).take s.handed.length = front := by rw [hlen, List.take_left]
  have hdrop : (front ++ qs).drop s.handed.length = qs := by rw [hlen, List.drop_left]
  refine ⟨by rw [htake]; exact hhanded, by rw [hdrop]; exact hbegins,
    by rw [htake]; exact hreceived, hlone, fun h hrun => ?_⟩
  rw [hall h hrun, List.append_nil]
  exact hhanded

/-- Bytes arrive. Source: `plugins/webinterface/httpclienthandler.cpp`. Kind: L -/
theorem Framed.readyRead {rs : List (HttpRequest parse)} {s : HttpClientHandler} (h : Framed rs s)
    {n : ℕ} (hok : Event.Ok starts rs (some s) (.readyRead n)) :
    ∃ s', step parse starts (sendAll rs) (some s) (.readyRead n) = some s' ∧ Framed rs s' := by
  refine ⟨_, rfl, ?_⟩
  generalize hbs : ((sendAll rs).drop s.received.length).take n = bs
  generalize hs₁ : { s with client := s.client ++ bs, received := s.received ++ bs } = s₁
  have hhanded₁ : s₁.handed = s.handed := by rw [← hs₁]
  have hbegun₁ : s₁.begun = s.begun ++ bs := by
    rw [← hs₁]
    exact begun_arrive s bs _
  have hstate₁ : s₁.state = s.state := by rw [← hs₁]
  have hnext := h.next n
  rw [hbs, ← hbegun₁] at hnext
  have hreceived₁ : s₁.received = sendAll (rs.take s.handed.length) ++ s₁.begun := by
    rw [hbegun₁, ← List.append_assoc, ← h.received, ← hs₁]
  have hbegins : Begins (rs.drop s.handed.length) s₁ := by
    refine ⟨hnext, ?_⟩
    have hshape := h.begins.shape
    rw [← hs₁]
    exact hshape
  have hlone₁ : s₁.Lone := by
    rw [← hs₁]
    exact ⟨h.lone.running, h.lone.busy⟩
  have hsplit := List.take_append_drop s.handed.length rs
  by_cases hphp : s.state = .PROCESSING_PHP
  · -- nothing is read
    rw [readyToRead_php (hstate₁.trans hphp), ← hsplit]
    refine framed_of_split (hhanded₁.trans h.handed) hbegins hreceived₁ hlone₁ fun _ hrun => ?_
    rw [hlone₁.running, hlone₁.busy (hstate₁.trans hphp)] at hrun
    cases hrun
  · obtain ⟨hsmall, halone, hcalm⟩ := hok hphp
    have hpending : pending rs n s = s₁.begun.length := by
      rw [pending, hbs, hbegun₁, List.length_append]
    rw [hpending] at halone hcalm
    have hsmall₁ : s₁.client.length + s₁.request_data.length < 2 ^ 32 := by
      rw [hbs] at hsmall
      rw [← hs₁]
      show (s.client ++ bs).length + s.request_data.length < 2 ^ 32
      rw [List.length_append]
      exact hsmall
    obtain ⟨c, htook, hcomplete⟩ := serves starts (rs.drop s.handed.length) s₁ hbegins hsmall₁
      (by rwa [hstate₁])
    rw [hstate₁] at hcomplete
    have hrs : rs.take s.handed.length ++ (rs.drop s.handed.length).take c ++
        (rs.drop s.handed.length).drop c = rs := by
      rw [List.append_assoc, List.take_append_drop, hsplit]
    rw [← hrs]
    refine framed_of_split ?_ htook.begins ?_ ?_ fun hall _ => ?_
    · rw [htook.handed, hhanded₁, List.map_append, ← h.handed]
    · rw [htook.received, hreceived₁, htook.begun, sendAll_append, List.append_assoc]
    · apply htook.lone hlone₁
      have hrunning₁ : s₁.running = s.running := by rw [← hs₁]
      rw [hhanded₁, hrunning₁]
      exact halone
    · -- everything came: the last bytes complete every request
      rw [hrs, htook.received] at hall
      have hbegun : s₁.begun = sendAll (rs.drop s.handed.length) := by
        rw [hreceived₁] at hall
        nth_rewrite 2 [← hsplit] at hall
        rw [sendAll_append] at hall
        exact List.append_cancel_left hall
      have hcame : (sendAll rs).length ≤ s.received.length + n := by
        rw [← hall, ← hs₁]
        show (s.received ++ bs).length ≤ _
        rw [List.length_append, ← hbs, List.length_take]
        exact Nat.add_le_add_left (Nat.min_le_left _ _) _
      have hc := hcomplete (hcalm hcame)
      rw [hbegun, complete_sendAll] at hc
      rw [hc, List.drop_length]

/-- A script finishes. Source: `plugins/webinterface/httpclienthandler.cpp`. Kind: L -/
theorem Framed.finished {rs : List (HttpRequest parse)} {s : HttpClientHandler} (h : Framed rs s)
    (hok : Event.Ok starts rs (some s) .finished) :
    ∃ s', step parse starts (sendAll rs) (some s) .finished = some s' ∧ Framed rs s' := by
  by_cases hrun : s.running = 0
  · exact ⟨s, if_pos hrun, h⟩
  · obtain ⟨hstate, hnone⟩ := hok hrun
    have hphp : s.php = true := by
      by_contra hno
      rw [h.lone.running, if_neg hno] at hrun
      exact hrun rfl
    refine ⟨{ s with php := false, running := s.running - 1, state := .WAITING_FOR_REQUEST }, ?_, ?_⟩
    · show (if s.running = 0 then _ else onPHPFinished s) = _
      rw [if_neg hrun, onPHPFinished, if_pos hphp]
    generalize hs₁ : { s with
      php := false, running := s.running - 1, state := ClientState.WAITING_FOR_REQUEST } = s₁
    have hbegins : Begins (rs.drop s.handed.length) s₁ ∧ s₁.begun = s.begun := by
      have hshape := h.begins.shape
      cases hst : s.state with
      | WAITING_FOR_CONTENT => exact absurd hst hstate
      | WAITING_FOR_REQUEST =>
        have hbegun : s₁.begun = s.begun := by
          rw [← hs₁]
          unfold begun
          rw [hst]
        refine ⟨⟨hbegun ▸ h.begins.front, ?_⟩, hbegun⟩
        unfold Shape at hshape ⊢
        rw [hst] at hshape
        rw [← hs₁]
        exact hshape
      | PROCESSING_PHP =>
        unfold Shape at hshape
        rw [hst] at hshape
        have hclient : s.begun = s.client := by
          unfold begun
          rw [hst]
        have hfront := h.begins.front
        rw [hclient] at hfront ⊢
        rw [← hs₁]
        exact begins_next (by simp) hshape hfront
    have hsplit := List.take_append_drop s.handed.length rs
    rw [← hsplit]
    refine framed_of_split ?_ hbegins.1 ?_ ⟨?_, ?_⟩ fun hall _ => ?_
    · rw [← hs₁]
      exact h.handed
    · rw [hbegins.2, ← h.received, ← hs₁]
    · rw [← hs₁]
      show s.running - 1 = 0
      rw [h.lone.running, if_pos hphp]
    · intro hbusy
      rw [← hs₁] at hbusy
      cases hbusy
    · rw [hsplit, ← hs₁] at hall
      rw [hnone hall, List.drop_length]

/-- An event that is in order keeps the frames.
Source: `plugins/webinterface/httpclienthandler.cpp`. Kind: L -/
theorem Framed.step {rs : List (HttpRequest parse)} {s : HttpClientHandler} (h : Framed rs s)
    {e : Event} (hok : Event.Ok starts rs (some s) e) :
    ∃ s', step parse starts (sendAll rs) (some s) e = some s' ∧ Framed rs s' := by
  cases e with
  | readyRead n => exact h.readyRead hok
  | finished => exact h.finished hok

/-- A new connection. Source: `plugins/webinterface/httpclienthandler.cpp`. Kind: L -/
theorem framed_new (rs : List (HttpRequest parse)) : Framed rs {} := by
  show Framed ([] ++ rs) {}
  refine framed_of_split rfl ?_ rfl ⟨rfl, fun h => nomatch h⟩ fun h _ => ?_
  · exact (begins_next (by simp) rfl List.nil_prefix).1
  · cases rs with
    | nil => rfl
    | cons r rs =>
      have h' : [] = r.bytes ++ sendAll rs := h
      exact absurd (List.append_eq_nil_iff.mp h'.symm).1 r.bytes_ne_nil

/-- **Framing over whole runs.** However the bytes of well-formed requests are cut, in every state
the requests handed over are the first ones, with their headers and bodies; and when everything came
and no script runs, they are all of them. Source: `plugins/webinterface/httpclienthandler.cpp`.
Kind: P -/
theorem framing_run (parse : List UInt8 → Method) (starts : ℕ → Bool)
    (rs : List (HttpRequest parse)) (evs : List Event)
    (h : Meets (step parse starts (sendAll rs)) (Event.Ok starts rs) (some {}) evs)
    {evs' : List Event} (hp : evs' <+: evs) :
    ∃ s, run (step parse starts (sendAll rs)) (some {}) evs' = some s ∧
      s.handed <+: rs.map HttpRequest.entry ∧
      (s.received = sendAll rs → s.running = 0 → s.handed = rs.map HttpRequest.entry) := by
  have hstep : ∀ (o : Option HttpClientHandler) (e : Event), (∃ s, o = some s ∧ Framed rs s) →
      Event.Ok starts rs o e →
      ∃ s', step parse starts (sendAll rs) o e = some s' ∧ Framed rs s' := by
    rintro _ e ⟨s, rfl, hs⟩ hok
    exact hs.step hok
  obtain ⟨s, hs, hframed⟩ := h.invariant_at hstep ⟨{}, rfl, framed_new rs⟩ hp
  refine ⟨s, hs, ?_, hframed.all⟩
  rw [hframed.handed]
  exact (List.take_prefix _ rs).map _

/-! ### Two requests -/

/-- What the library makes of a header: the first word is the method, and the length is read from the
line that starts with `Content-Length:`. Source: `TQHttpRequestHeader::parseLine`. Kind: D -/
def parseHeader (header : List UInt8) : Method :=
  let method := header.takeWhile (· ≠ 32)
  if method = latin1 "GET" then .get
  else if method = latin1 "POST" then
    .post ((header.splitOn 10).findSome? fun line =>
      if latin1 "Content-Length: " <+: line then
        TQString.toUnsigned (line.drop (latin1 "Content-Length: ").length)
      else none)
  else .other

/-- A header whose fronts that end with an empty line are the whole of it.
Source: `plugins/webinterface/httpclienthandler.cpp`. Kind: L -/
theorem header_of_inits {bs : List UInt8} (hends : emptyLine <:+ bs)
    (hfirst : ∀ p ∈ bs.inits, emptyLine <:+ p → p = bs) (hnul : 0 ∉ bs) : Header bs :=
  ⟨hends, fun p hp => hfirst p ((List.mem_inits p bs).mpr hp), hnul⟩

/-- The front page is asked for. Kind: D -/
def frontPage : HttpRequest parseHeader where
  header := latin1 "GET / HTTP/1.1\r\nHost: localhost\r\n\r\n"
  body := []
  wf := header_of_inits (by decide) (by decide) (by decide)
  kind := .inl (by decide)

/-- The form of the login page is sent. Kind: D -/
def loginForm : HttpRequest parseHeader where
  header := latin1 "POST /login HTTP/1.1\r\nContent-Length: 10\r\n\r\n"
  body := latin1 "password=a"
  wf := header_of_inits (by decide) (by decide) (by decide)
  kind := .inr (by decide)

/-- The form and the page behind it. Kind: D -/
def loggingIn : List (HttpRequest parseHeader) := [loginForm, frontPage]

/-- A connection that has the first line of the form's header and a part of the second.
Kind: D -/
def partOfForm : HttpClientHandler where
  client := latin1 "Content-"
  header_data := latin1 "POST /login HTTP/1.1\r\n"
  received := latin1 "POST /login HTTP/1.1\r\nContent-"

/-- **A form and a page in two pieces**, the first of which ends within the form's header: both are
handed over, the form first. Source: `TQHttpRequestHeader::parseLine`. Kind: L -/
theorem framing_together :
    Meets (step parseHeader (fun _ => false) (sendAll loggingIn))
        (Event.Ok (fun _ => false) loggingIn) (some {}) [.readyRead 30, .readyRead 100] ∧
      ∃ s, run (step parseHeader (fun _ => false) (sendAll loggingIn)) (some {})
          [.readyRead 30, .readyRead 100] = some s ∧
        s.handed <+: loggingIn.map HttpRequest.entry ∧
        (s.received = sendAll loggingIn → s.running = 0 →
          s.handed = loggingIn.map HttpRequest.entry) := by
  have hread : readHeader ((sendAll loggingIn).take 30) [] =
      (partOfForm.client, partOfForm.header_data, false) := by
    have hline : readLine ((sendAll loggingIn).take 30) =
        some (latin1 "POST /login HTTP/1.1\r\n", latin1 "Content-") := by decide
    have hnone : readLine (latin1 "Content-") = none := by decide
    rw [readHeader_line hline (by decide), readHeader_none hnone]
    decide
  have hfirst : step parseHeader (fun _ => false) (sendAll loggingIn) (some {}) (.readyRead 30) =
      some partOfForm := by
    refine congrArg some ((readyToRead_part rfl hread).trans ?_)
    rfl
  have hok : Meets (step parseHeader (fun _ => false) (sendAll loggingIn))
      (Event.Ok (fun _ => false) loggingIn) (some {}) [.readyRead 30, .readyRead 100] := by
    refine ⟨fun _ => ⟨by decide, ?_, fun h => absurd h (by decide)⟩, ?_⟩
    · exact fun h => absurd h (by decide)
    · rw [hfirst]
      -- the form is whole now, and the page behind it; the form's body is not empty
      refine ⟨fun _ => ⟨by decide, fun _ => ⟨(fun h => nomatch h), fun _ _ => ?_⟩, fun _ _ => ?_⟩,
        trivial⟩
      · exact ⟨(fun h => nomatch h), fun h => absurd h (by decide)⟩
      · exact ⟨fun _ h => absurd h (by decide), fun _ => rfl⟩
  exact ⟨hok, framing_run _ _ _ _ hok List.prefix_rfl⟩

/-- **Two `GET` requests that come together**: the second stays in the socket.
Source: `plugins/webinterface/httpclienthandler.cpp`. Kind: L -/
theorem second_unread :
    ¬ ∀ (parse : List UInt8 → Method) (starts : ℕ → Bool) (rs : List (HttpRequest parse))
      (evs : List Event), ∃ s, run (step parse starts (sendAll rs)) (some {}) evs = some s ∧
        (s.received = sendAll rs → s.running = 0 → s.handed = rs.map HttpRequest.entry) := by
  intro h
  obtain ⟨s, hs, hall⟩ := h parseHeader (fun _ => false) [frontPage, frontPage] [.readyRead 100]
  have hread : readHeader (sendAll [frontPage, frontPage]) [] =
      (frontPage.header, frontPage.header, true) :=
    readHeader_whole frontPage.wf rfl frontPage.header_ne_nil frontPage.header
  let s₁ : HttpClientHandler :=
    { client := sendAll [frontPage, frontPage], received := sendAll [frontPage, frontPage] }
  have hcall : readyToRead parseHeader (fun _ => false) s₁ =
      { hand (fun _ => false) frontPage.header [] { s₁ with client := frontPage.header } with
        header_data := [], request_data := [] } := readyToRead_get rfl hread (by decide)
  obtain rfl : _ = s := Option.some.inj ((congrArg some hcall).symm.trans hs)
  exact absurd (hall rfl rfl) (by decide)

end HttpClientHandler

end

end KTorrent.Web
