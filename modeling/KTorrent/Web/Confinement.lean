import KTorrent.Lib.Paths
import KTorrent.Web.HttpServer

/-!
# Where the files that are sent lie

The path of a request is decoded and appended to the skin's directory. Nothing looks for `..` in it.

* `Effect.Confined` — a file that is sent or run lies below the skin's directory.
* `confined_iff` — whatever is on the disk and whatever the skin is, what `handleGet` sends or runs
  lies below the skin's directory exactly if the decoded path is `Harmless`: it starts with a slash
  and never climbs, or its extension is none that is sent, or the login page is asked for.
* `secret_sent` — a picture above the skin's directory.

Source: `plugins/webinterface/httpserver.cpp`
-/

namespace KTorrent.Web

open KTorrent.Lib KTorrent.Util

/-! ### Extensions -/

/-- The last name of a path. Kind: D -/
def lastName (path : Text) : Text := (path.reverse.takeWhile (· ≠ '/'.toUInt8)).reverse

/-- The extension is what follows the first dot of the name. Source: `TQFileInfo::extension`.
Kind: L -/
theorem extension_eq (path : Text) :
    extension path = ((lastName path).dropWhile (· ≠ '.'.toUInt8)).drop 1 := rfl

/-- A name without a separator is the whole path. Source: `plugins/webinterface/httpserver.cpp`.
Kind: L -/
theorem lastName_name {t : Text} (h : '/'.toUInt8 ∉ t) : lastName t = t := by
  unfold lastName
  rw [List.takeWhile_eq_self_iff.mpr, List.reverse_reverse]
  intro c hc
  have hne : c ≠ '/'.toUInt8 := by
    rintro rfl
    exact h (List.mem_reverse.mp hc)
  simpa using hne

/-- Without a slash behind, the last name goes on. Source: none: infrastructure. Kind: L -/
theorem lastName_append {t : Text} (h : '/'.toUInt8 ∉ t) (a : Text) :
    lastName (a ++ t) = lastName a ++ t := by
  have hall : ∀ c ∈ t.reverse, decide (c ≠ '/'.toUInt8) = true := by
    intro c hc
    have hne : c ≠ '/'.toUInt8 := by
      rintro rfl
      exact h (List.mem_reverse.mp hc)
    simpa using hne
  unfold lastName
  rw [List.reverse_append, List.takeWhile_append_of_pos hall, List.reverse_append,
    List.reverse_reverse]

/-- With a slash, what is in front does not matter. Source: `plugins/webinterface/httpserver.cpp`.
Kind: L -/
theorem lastName_append_of_mem {t : Text} (h : '/'.toUInt8 ∈ t) (a : Text) :
    lastName (a ++ t) = lastName t := by
  have hne : (t.reverse.takeWhile (· ≠ '/'.toUInt8)).length ≠ t.reverse.length := by
    intro hlen
    have hall := (List.takeWhile_prefix (· ≠ '/'.toUInt8)).eq_of_length hlen
    have hc := List.takeWhile_eq_self_iff.mp hall _ (List.mem_reverse.mpr h)
    simp at hc
  unfold lastName
  rw [List.reverse_append, List.takeWhile_append, if_neg hne]

/-- Behind a dot of the last name the extension goes on. Source: `TQFileInfo::extension`. Kind: L -/
theorem extension_append {t : Text} (h : '/'.toUInt8 ∉ t) (a : Text) :
    extension (a ++ t) =
      if '.'.toUInt8 ∈ lastName a then extension a ++ t else extension t := by
  rw [extension_eq, extension_eq, extension_eq, lastName_append h, lastName_name h,
    List.dropWhile_append]
  split_ifs with hall hdot hdot
  · rw [List.isEmpty_iff, List.dropWhile_eq_nil_iff] at hall
    have := hall _ hdot
    simp at this
  · rfl
  · rw [List.drop_append_of_le_length]
    rw [List.isEmpty_iff] at hall
    exact List.length_pos_iff.mpr hall
  · rw [List.isEmpty_iff, List.dropWhile_eq_nil_iff] at hall
    refine absurd (fun c hc => ?_) hall
    have hne : c ≠ '.'.toUInt8 := by
      rintro rfl
      exact hdot hc
    simpa using hne

/-- A path with a slash has its own extension. Source: `TQFileInfo::extension`. Kind: L -/
theorem extension_append_of_mem {t : Text} (h : '/'.toUInt8 ∈ t) (a : Text) :
    extension (a ++ t) = extension t := by
  rw [extension_eq, extension_eq, lastName_append_of_mem h]

/-! ### What is sent -/

/-- The file that is sent, or run as a script. Kind: D -/
def Effect.file : Effect → Option Text
  | .sendFile path | .runPHP path => some path
  | _ => none

/-- What is sent or run lies below the skin's directory. Kind: D -/
def Effect.Confined (r : Request) (e : Effect) : Prop :=
  ∀ path ∈ e.file, Below '/'.toUInt8 '.'.toUInt8 (HttpServer.fullPath r []) path

/-- The extensions of what is sent. Kind: D -/
def served : List Text :=
  [latin1 "html", latin1 "css", latin1 "js", latin1 "png", latin1 "ico", latin1 "gif", latin1 "jpg",
    latin1 "php"]

/-- Some skin's directory and the path make a name that is sent. Kind: D -/
def Sendable (path : Text) : Prop :=
  extension path ∈ served ∨ ('/'.toUInt8 ∉ path ∧ ∃ ext ∈ served, path <:+ ext)

/-- The page asked for. Kind: D -/
def asked (path : Text) : Text := if path = latin1 "/" then latin1 "/login.html" else path

/-- The login page, or nothing that is sent, or a path from a slash on that does not climb.
Kind: D -/
def Harmless (urlPath : Text → Text) (path : Text) : Prop :=
  asked path = latin1 "/login.html" ∨ ¬ Sendable (urlPath (asked path)) ∨
    urlPath (asked path) = [] ∨ (['/'.toUInt8] <+: urlPath (asked path) ∧
      ¬ Climbs '.'.toUInt8 0 (components '/'.toUInt8 (urlPath (asked path))))

namespace HttpServer

/-- The file that is sent is the one of the path. Source: `HttpClientHandler::sendFile`. Kind: L -/
theorem sendFile_file {r : Request} {path q : Text} {e : Effect} (h : e ∈ sendFile r path)
    (hq : q ∈ e.file) : q = path := by
  unfold sendFile at h
  split_ifs at h
  · rw [List.mem_singleton.mp h] at hq
    exact (Option.some.inj hq).symm
  · rw [List.mem_singleton.mp h] at hq
    cases hq

/-- The page itself if its extension is one of those sent, or the login page.
Source: `HttpServer::handleGet`. Kind: L -/
theorem answer_file {s : HttpServer} {r : Request} {file path ext q : Text} {e : Effect}
    (h : e ∈ s.answer r file path ext) (hq : q ∈ e.file) :
    (q = path ∧ ext ∈ served) ∨ q = fullPath r (latin1 "/login.html") := by
  unfold answer at h
  by_cases h1 : ext = latin1 "html"
  · rw [if_pos h1] at h
    exact .inl ⟨sendFile_file h hq, by simp [served, h1]⟩
  rw [if_neg h1] at h
  by_cases h2 : ext ∈ [latin1 "css", latin1 "js", latin1 "png", latin1 "ico", latin1 "gif",
      latin1 "jpg"]
  · rw [if_pos h2] at h
    have hext : ext ∈ served := by
      rw [show served = [latin1 "html"] ++ [latin1 "css", latin1 "js", latin1 "png", latin1 "ico",
        latin1 "gif", latin1 "jpg"] ++ [latin1 "php"] from rfl, List.mem_append, List.mem_append]
      exact .inl (.inr h2)
    split_ifs at h
    · rw [List.mem_singleton.mp h] at hq
      cases hq
    · exact .inl ⟨sendFile_file h hq, hext⟩
  rw [if_neg h2] at h
  by_cases h3 : ext = latin1 "php"
  · rw [if_pos h3] at h
    dsimp only at h
    obtain h | h := List.mem_append.mp h
    · split_ifs at h
      · rw [List.mem_singleton.mp h] at hq
        cases hq
      · cases h
    · split_ifs at h
      · exact .inr (sendFile_file h hq)
      · rw [List.mem_singleton.mp h] at hq
        exact .inl ⟨(Option.some.inj hq).symm, by simp [served, h3]⟩
  · rw [if_neg h3, List.mem_singleton] at h
    rw [h] at hq
    cases hq

/-- What a request can be sent: the login page, or the file it asks for.
Source: `HttpServer::handleGet`. Kind: L -/
theorem handleGet_file {s : HttpServer} {r : Request} {path q : Text} {free : Bool} {e : Effect}
    (h : e ∈ (s.handleGet r path free).2) (hq : q ∈ e.file) :
    q = fullPath r (latin1 "/login.html") ∨
      (asked path ≠ latin1 "/login.html" ∧ q = fullPath r (r.urlPath (asked path)) ∧
        extension q ∈ served) := by
  have hanswer : ∀ {s' : HttpServer}, asked path ≠ latin1 "/login.html" →
      e ∈ s'.answer r (asked path) (fullPath r (r.urlPath (asked path)))
        (extension (fullPath r (r.urlPath (asked path)))) →
      q = fullPath r (latin1 "/login.html") ∨
        (asked path ≠ latin1 "/login.html" ∧ q = fullPath r (r.urlPath (asked path)) ∧
          extension q ∈ served) := by
    intro s' hlogin he
    obtain ⟨rfl, hext⟩ | hq := answer_file he hq
    · exact .inr ⟨hlogin, rfl, hext⟩
    · exact .inl hq
  unfold handleGet at h
  rw [← asked] at h
  dsimp only at h
  split_ifs at h with hdisk hlogin hout hcheck hfail
  · rw [List.mem_singleton.mp h] at hq
    cases hq
  · dsimp only at h
    obtain ⟨hq, -⟩ | hq := answer_file h hq
    · exact .inl hq
    · exact .inl hq
  · exact .inl (sendFile_file h hq)
  · exact .inl (sendFile_file h hq)
  · exact hanswer (fun hl => hlogin (.inl hl)) h
  · exact hanswer (fun hl => hlogin (.inl hl)) h

/-- A name is put behind the directory of the skin. Source: none: infrastructure. Kind: L -/
theorem fullPath_append (r : Request) (name : Text) : fullPath r name = fullPath r [] ++ name := by
  unfold fullPath
  rw [List.append_nil]

/-- A path from a slash on that does not climb, behind the skin's directory.
Source: `plugins/webinterface/httpserver.cpp`. Kind: L -/
theorem below_fullPath {r : Request} {path : Text} (hslash : ['/'.toUInt8] <+: path)
    (hclimbs : ¬ Climbs '.'.toUInt8 0 (components '/'.toUInt8 path)) :
    Below '/'.toUInt8 '.'.toUInt8 (fullPath r []) (fullPath r path) := by
  obtain ⟨t, rfl⟩ := hslash
  rw [fullPath_append r (['/'.toUInt8] ++ t)]
  apply below_append
  have hnames : components '/'.toUInt8 (['/'.toUInt8] ++ t) = [] :: components '/'.toUInt8 t :=
    components_append [] t
  rwa [hnames, Climbs, if_pos (.inl rfl)] at hclimbs

/-- What is sent has a path that can be sent. Source: `TQFileInfo::extension`. Kind: L -/
theorem sendable_of_extension {dir path : Text} (h : extension (dir ++ path) ∈ served) :
    Sendable path := by
  by_cases hslash : '/'.toUInt8 ∈ path
  · rw [extension_append_of_mem hslash] at h
    exact .inl h
  · rw [extension_append hslash] at h
    split_ifs at h
    · exact .inr ⟨hslash, _, h, List.suffix_append _ _⟩
    · exact .inl h

/-- Nothing outside the skin's directory is sent for a harmless path.
Source: `plugins/webinterface/httpserver.cpp`. Kind: L -/
theorem confined_of_harmless {s : HttpServer} {r : Request} {path : Text} {free : Bool}
    (h : Harmless r.urlPath path) {e : Effect} (he : e ∈ (s.handleGet r path free).2) :
    e.Confined r := by
  intro q hq
  obtain rfl | ⟨hlogin, rfl, hext⟩ := handleGet_file he hq
  · exact below_fullPath (by decide) (by decide)
  · obtain h | h | h | ⟨hslash, hclimbs⟩ := h
    · exact absurd h hlogin
    · rw [fullPath_append] at hext
      exact absurd (sendable_of_extension hext) h
    · rw [h]
      exact List.prefix_refl _
    · exact below_fullPath hslash hclimbs

/-! ### A skin for every path that is not harmless -/

/-- Every file is there, the session is open. Kind: D -/
def openRequest (urlPath : Text → Text) (skin : Text) : Request where
  wait := 0
  post := false
  path := []
  settings := { username := [], password := [], sessionTTL := 1, skin := skin }
  rootDir := []
  hexDigest := id
  rand := 0
  urlPath := urlPath
  queryItems := fun _ => []
  disk := fun _ => true
  opens := fun _ => true

/-- Kind: D -/
def openServer : HttpServer where
  session := ⟨true, 0, 0⟩

/-- Whatever can be sent is. Source: `TQFileInfo::extension`. Kind: L -/
theorem sent_of_extension {urlPath : Text → Text} {skin path : Text}
    (hlogin : asked path ≠ latin1 "/login.html")
    (hext : extension (fullPath (openRequest urlPath skin) (urlPath (asked path))) ∈ served) :
    ∃ e ∈ (openServer.handleGet (openRequest urlPath skin) path false).2,
      fullPath (openRequest urlPath skin) (urlPath (asked path)) ∈ e.file := by
  have hslash : asked path ≠ latin1 "/" := by
    intro h
    unfold asked at h
    by_cases hp : path = latin1 "/"
    · rw [if_pos hp] at h
      exact absurd h (by decide)
    · rw [if_neg hp] at h
      exact hp h
  obtain ⟨page, hpage⟩ :
    ∃ page, fullPath (openRequest urlPath skin) (urlPath (asked path)) = page := ⟨_, rfl⟩
  rw [hpage] at hext ⊢
  have hget : (openServer.handleGet (openRequest urlPath skin) path false).2 =
      openServer.answer (openRequest urlPath skin) (asked path) page (extension page) := by
    unfold handleGet
    rw [← asked]
    dsimp only
    rw [show fullPath (openRequest urlPath skin) ((openRequest urlPath skin).urlPath (asked path)) =
      page from hpage, if_neg (by simp [openRequest]), if_neg (not_or.mpr ⟨hlogin, hslash⟩),
      if_neg (by simp [openServer])]
    split_ifs with hguard hfail
    · have hopen : (openServer.checkSession (openRequest urlPath skin)).2 = true := rfl
      rw [hopen] at hfail
      exact absurd hfail (by decide)
    · rfl
    · rfl
  rw [hget]
  have hsend : sendFile (openRequest urlPath skin) page = [.sendFile page] := rfl
  have hplain : (openRequest urlPath skin).modified = false := rfl
  unfold answer
  by_cases h1 : extension page = latin1 "html"
  · rw [if_pos h1, hsend]
    exact ⟨_, List.mem_singleton_self _, rfl⟩
  rw [if_neg h1]
  by_cases h2 : extension page ∈ [latin1 "css", latin1 "js", latin1 "png", latin1 "ico",
      latin1 "gif", latin1 "jpg"]
  · rw [if_pos h2, hplain, if_neg Bool.false_ne_true, hsend]
    exact ⟨_, List.mem_singleton_self _, rfl⟩
  rw [if_neg h2]
  by_cases h3 : extension page = latin1 "php"
  · rw [if_pos h3]
    exact ⟨_, List.mem_singleton_self _, rfl⟩
  · refine absurd hext ?_
    rw [show served = latin1 "html" :: ([latin1 "css", latin1 "js", latin1 "png", latin1 "ico",
      latin1 "gif", latin1 "jpg"] ++ [latin1 "php"]) from rfl, List.mem_cons, List.mem_append,
      List.mem_singleton, not_or, not_or]
    exact ⟨h1, h2, h3⟩

/-- Below a directory of one name every path goes through it.
Source: `plugins/webinterface/httpserver.cpp`. Kind: L -/
theorem not_below {skin path : Text} (hslash : '/'.toUInt8 ∉ skin) (hlen : 3 ≤ skin.length)
    (h : skin ∉ walk '.'.toUInt8 [] (components '/'.toUInt8 path)) :
    ¬ Below '/'.toUInt8 '.'.toUInt8 ('/'.toUInt8 :: skin) path := by
  intro hbelow
  have hnames : components '/'.toUInt8 ('/'.toUInt8 :: skin) = [[], skin] := by
    rw [components, if_pos rfl, components_name hslash]
  have hdir : resolve '/'.toUInt8 '.'.toUInt8 ('/'.toUInt8 :: skin) = [skin] := by
    unfold resolve
    rw [hnames, walk_empty, walk_name hlen]
    rfl
  unfold Below at hbelow
  rw [hdir] at hbelow
  exact h (List.mem_reverse.mp (hbelow.subset (List.mem_singleton_self skin)))

/-- Behind a long name a path that is not from a slash on, or that climbs, leads out.
Source: `plugins/webinterface/httpserver.cpp`. Kind: L -/
theorem leads_out {skin path : Text} (hslash : '/'.toUInt8 ∉ skin)
    (hlen : path.length + 3 ≤ skin.length) (hne : path ≠ [])
    (h : ¬ (['/'.toUInt8] <+: path ∧ ¬ Climbs '.'.toUInt8 0 (components '/'.toUInt8 path))) :
    ¬ Below '/'.toUInt8 '.'.toUInt8 ('/'.toUInt8 :: skin) ('/'.toUInt8 :: skin ++ path) := by
  have hlong : 3 ≤ skin.length := (Nat.le_add_left 3 _).trans hlen
  apply not_below hslash hlong
  have hother : ∀ name ∈ components '/'.toUInt8 path, name ≠ skin := by
    rintro name hname rfl
    have := length_of_mem_components hname
    omega
  rw [List.cons_append, components, if_pos rfl, walk_empty]
  cases path with
  | nil => exact absurd rfl hne
  | cons c t =>
    by_cases hc : c = '/'.toUInt8
    · subst hc
      have hnames : components '/'.toUInt8 ('/'.toUInt8 :: t) = [] :: components '/'.toUInt8 t :=
        components_append [] t
      have hclimbs : Climbs '.'.toUInt8 0 (components '/'.toUInt8 t) := by
        by_contra hno
        refine h ⟨⟨t, rfl⟩, ?_⟩
        rwa [hnames, Climbs, if_pos (.inl rfl)]
      rw [hnames] at hother
      rw [components_append, components_name hslash, List.singleton_append, walk_name hlong]
      exact (walk_out fun name hname => hother name (List.mem_cons_of_mem _ hname)).2 []
        List.not_mem_nil hclimbs
    · cases hnames : components '/'.toUInt8 (c :: t) with
      | nil => exact absurd hnames (components_ne_nil _)
      | cons name names =>
        have hname : name ≠ [] := by
          rw [components, if_neg hc] at hnames
          split at hnames
          · rw [← (List.cons.inj hnames).1]
            exact List.cons_ne_nil _ _
          · rw [← (List.cons.inj hnames).1]
            exact List.cons_ne_nil _ _
        rw [hnames] at hother
        rw [components_name_append hslash _ hnames, walk_name]
        · apply (walk_out fun n hn => hother n (List.mem_cons_of_mem _ hn)).1
          rw [List.mem_singleton]
          intro heq
          exact hname (List.self_eq_append_right.mp heq)
        · rw [List.length_append]
          omega

/-- A skin's name behind which a file that can be sent has an extension that is sent.
Source: `plugins/webinterface/httpserver.cpp`. Kind: L -/
theorem exists_skin {path : Text} (h : Sendable path) : ∃ skin : Text, '/'.toUInt8 ∉ skin ∧
    path.length + 3 ≤ skin.length ∧ extension ('/'.toUInt8 :: skin ++ path) ∈ served := by
  obtain ⟨long, hlong⟩ : ∃ long, List.replicate (path.length + 3) 'a'.toUInt8 = long := ⟨_, rfl⟩
  have hlen : path.length + 3 ≤ long.length := by rw [← hlong, List.length_replicate]
  have hall : ∀ c ∈ long, c = 'a'.toUInt8 := by
    intro c hc
    rw [← hlong] at hc
    exact List.eq_of_mem_replicate hc
  have hslash : '/'.toUInt8 ∉ long := fun hc => absurd (hall _ hc) (by decide)
  have hdot : '.'.toUInt8 ∉ long := fun hc => absurd (hall _ hc) (by decide)
  have hlast : ∀ t : Text, '/'.toUInt8 ∉ t → lastName ('/'.toUInt8 :: t) = t :=
    fun t ht => lastName_append ht ['/'.toUInt8]
  by_cases hmem : '/'.toUInt8 ∈ path
  · obtain h | h := h
    · refine ⟨long, hslash, hlen, ?_⟩
      rwa [extension_append_of_mem hmem]
    · exact absurd hmem h.1
  · obtain h | ⟨-, ext, hext, pre, rfl⟩ := h
    · refine ⟨long, hslash, hlen, ?_⟩
      rwa [extension_append hmem, hlast long hslash, if_neg hdot]
    · have hpre : '/'.toUInt8 ∉ pre := by
        have hall : ∀ ext ∈ served, '/'.toUInt8 ∉ ext := by decide
        exact fun hc => hall _ hext (List.mem_append_left path hc)
      have hskin : '/'.toUInt8 ∉ long ++ '.'.toUInt8 :: pre := by
        rw [List.mem_append, List.mem_cons, not_or, not_or]
        exact ⟨hslash, by decide, hpre⟩
      refine ⟨long ++ '.'.toUInt8 :: pre, hskin, ?_, ?_⟩
      · rw [List.length_append]
        exact hlen.trans (Nat.le_add_right _ _)
      · have hpart : extension ('/'.toUInt8 :: (long ++ '.'.toUInt8 :: pre)) = pre := by
          rw [extension_eq, hlast _ hskin, List.dropWhile_append_of_pos]
          · simp
          · intro c hc
            rw [hall c hc]
            decide
        rwa [extension_append hmem, hlast _ hskin,
          if_pos (List.mem_append_right long List.mem_cons_self), hpart]

/-- **Whatever is on the disk, nothing outside the skin's directory is sent or run exactly for the
harmless paths.**. Source: `plugins/webinterface/httpserver.cpp`. Kind: P -/
theorem confined_iff (urlPath : Text → Text) (path : Text) :
    (∀ (s : HttpServer) (r : Request) (free : Bool), r.urlPath = urlPath →
      ∀ e ∈ (s.handleGet r path free).2, e.Confined r) ↔ Harmless urlPath path := by
  constructor
  · intro h
    by_contra hharm
    unfold Harmless at hharm
    rw [not_or, not_or, not_or, not_not] at hharm
    obtain ⟨hlogin, hsend, hne, hout⟩ := hharm
    obtain ⟨skin, hslash, hlen, hext⟩ := exists_skin hsend
    obtain ⟨e, he, hfile⟩ := sent_of_extension hlogin hext
    have hdir : fullPath (openRequest urlPath skin) [] = '/'.toUInt8 :: skin :=
      List.append_nil ('/'.toUInt8 :: skin)
    have hbelow := h openServer (openRequest urlPath skin) false rfl e he _ hfile
    rw [fullPath_append _ (urlPath _), hdir] at hbelow
    exact leads_out hslash hlen hne hout hbelow
  · intro h s r free hr e he
    rw [← hr] at h
    exact confined_of_harmless h he

/-- A picture above the skin's directory is sent. Source: `plugins/webinterface/httpserver.cpp`.
Kind: P -/
theorem secret_sent :
    ¬ ∀ (s : HttpServer) (r : Request), r.post = false → r.urlPath = id →
      ∀ e ∈ (s.handle r).2, e.Confined r := by
  intro h
  have hout := h openServer
    { openRequest id (latin1 "default") with path := latin1 "/../secret.png" } rfl rfl
    (.sendFile (latin1 "/default/../secret.png")) (by decide)
    (latin1 "/default/../secret.png") rfl
  exact absurd hout (by decide)

end HttpServer

end KTorrent.Web
