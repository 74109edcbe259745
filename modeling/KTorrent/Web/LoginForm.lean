import KTorrent.Web.PasswordDecoding
import Mathlib.Data.List.SplitBy

/-!
# The password in a login form

A browser sends a login form as its parameters, of which the password is one: the pages that come with
the web interface have the user name in front of it, and two of the three the button behind it.

* `LoginForm` — a form, and its `data`.
* `LoginForm.read_eq` — what `checkLogin` reads as the password.
* `decoded_iff` — it is the password that was sent if that is `Decodable`: in ASCII, without spaces,
  with escapes of two decimal digits only and none at the start; and `quiet`, if a parameter stands
  behind it.
* `plus_password` — a password with a `+` comes back with a `!`.

Source: `plugins/webinterface/httpserver.cpp`
-/

namespace KTorrent.Web

open KTorrent.Lib KTorrent.Util

/-! ### Forms -/

/-- A parameter of a form, its name and its value without the characters that separate them. Kind: D -/
structure Field where
  name : Text
  value : Text
  plain : ∀ b ∈ name ++ value, b ≠ 0 ∧ b ≠ '&'.toUInt8 ∧ b ≠ '='.toUInt8

/-- The parameter as it is sent. Kind: D -/
def Field.text (f : Field) : Text := f.name ++ '='.toUInt8 :: f.value

/-- The parameters, one behind the other. Kind: D -/
def joined : List Field → Text
  | [] => []
  | f :: fs => f.text ++ fs.flatMap fun g => '&'.toUInt8 :: g.text

/-- The bytes of a text, looked at one after the other.
Source: `plugins/webinterface/httpserver.cpp`. Kind: L -/
theorem plain_of_all {l : Text}
    (h : l.all (fun b => b != 0 && b != '&'.toUInt8 && b != '='.toUInt8) = true) :
    ∀ b ∈ l, b ≠ 0 ∧ b ≠ '&'.toUInt8 ∧ b ≠ '='.toUInt8 := by
  intro b hb
  have hone := List.all_eq_true.mp h b hb
  simpa [and_assoc] using hone

/-- An encoded byte is no null byte and no mark of the form.
Source: `plugins/webinterface/httpserver.cpp`. Kind: L -/
theorem formByte_plain (upper : Bool) (b : UInt8) :
    ∀ c ∈ formByte upper b, c ≠ 0 ∧ c ≠ '&'.toUInt8 ∧ c ≠ '='.toUInt8 := by
  have hall : ∀ (u : Bool) (n : Fin 256), (formByte u (.ofNat n)).all
      (fun b => b != 0 && b != '&'.toUInt8 && b != '='.toUInt8) = true := by
    decide +kernel
  exact plain_of_all (by simpa using hall upper ⟨b.toNat, b.toNat_lt⟩)

/-- A form that sends a password: the parameters in front of it and those behind it, none of which is
another password. Kind: D -/
structure LoginForm where
  front : List Field := []
  password : List Char
  upper : Bool := true
  back : List Field := []
  once : ∀ f ∈ back, f.name ≠ latin1 "password" := by decide

namespace LoginForm

/-- The parameter of the password. Kind: D -/
def field (form : LoginForm) : Field where
  name := latin1 "password"
  value := formEncode form.upper form.password
  plain b hb := by
    rcases List.mem_append.mp hb with hb | hb
    · exact plain_of_all (l := latin1 "password") (by decide) b hb
    · unfold formEncode at hb
      obtain ⟨c, -, hc⟩ := List.mem_flatMap.mp hb
      exact formByte_plain _ c b hc

/-- What the browser sends. Kind: D -/
def data (form : LoginForm) : Text := joined (form.front ++ form.field :: form.back)

/-- What `checkLogin` reads: the user name and the password. Source: `HttpServer::checkLogin`.
Kind: D -/
def read (form : LoginForm) : Option Text × Option Text :=
  (split '&'.toUInt8 (form.data.takeWhile (· ≠ 0))).foldl loginParameter (none, none)

/-- **The forms whose password can be decoded.** Kind: D -/
def Decodable (form : LoginForm) : Prop :=
  Web.Decodable form.password ∧
    (form.back = [] ∨ quiet (passwordBytes form.password) = true)

end LoginForm

/-! ### What is read of a form -/

namespace Field

/-- A field's text has no null byte and no ampersand. Source: `plugins/webinterface/httpserver.cpp`.
Kind: L -/
theorem mem_text {f : Field} {b : UInt8} (h : b ∈ f.text) : b ≠ 0 ∧ b ≠ '&'.toUInt8 := by
  unfold text at h
  rcases List.mem_append.mp h with h | h
  · exact ⟨(f.plain b (List.mem_append_left _ h)).1, (f.plain b (List.mem_append_left _ h)).2.1⟩
  rcases List.mem_cons.mp h with rfl | h
  · decide
  · exact ⟨(f.plain b (List.mem_append_right _ h)).1, (f.plain b (List.mem_append_right _ h)).2.1⟩

/-- A field's text is not empty. Source: none: infrastructure. Kind: L -/
theorem text_ne_nil (f : Field) : f.text ≠ [] := by
  unfold text
  simp

/-- The name of a field. Source: `TQString::section(sep,0,0)`. Kind: L -/
theorem section0_text (f : Field) : section0 '='.toUInt8 f.text = f.name := by
  have hname : ∀ b ∈ f.name, decide (b ≠ '='.toUInt8) = true := fun b hb =>
    decide_eq_true (f.plain b (List.mem_append_left _ hb)).2.2
  unfold section0 text
  rw [List.takeWhile_append_of_pos hname]
  simp

/-- The value of a field. Source: `TQString::section(sep,1,1)`. Kind: L -/
theorem section1_text (f : Field) : section1 '='.toUInt8 f.text = some f.value := by
  have hname : ∀ b ∈ f.name, decide (b ≠ '='.toUInt8) = true := fun b hb =>
    decide_eq_true (f.plain b (List.mem_append_left _ hb)).2.2
  have hvalue : ∀ b ∈ f.value, decide (b ≠ '='.toUInt8) = true := fun b hb =>
    decide_eq_true (f.plain b (List.mem_append_right _ hb)).2.2
  unfold section1 text
  rw [if_pos (by simp), List.dropWhile_append_of_pos hname, List.dropWhile_cons_of_neg (by simp),
    List.drop_one, List.tail_cons, List.takeWhile_eq_self_iff.mpr hvalue]

end Field

/-- Behind a separator a run goes on to the next one. Source: `plugins/webinterface/httpserver.cpp`.
Kind: L -/
theorem isChain_text (sep c : UInt8) {t : Text} (h : sep ∉ t) :
    (c :: t).IsChain fun _ d => decide (d ≠ sep) = true := by
  induction t generalizing c with
  | nil => exact List.isChain_singleton c
  | cons b t ih =>
    obtain ⟨hb, ht⟩ := not_or.mp (mt List.mem_cons.mpr h)
    exact List.isChain_cons_cons.mpr ⟨decide_eq_true (Ne.symm hb), ih b ht⟩

/-- What the text is split into behind the first parameter.
Source: `plugins/webinterface/httpserver.cpp`. Kind: L -/
theorem splitBy_flatMap (sep : UInt8) {l : List Text} (h : ∀ t ∈ l, sep ∉ t) :
    (l.flatMap (sep :: ·)).splitBy (fun _ d => decide (d ≠ sep)) = l.map (sep :: ·) := by
  induction l with
  | nil => rfl
  | cons t ts ih =>
    have hfirst := List.splitBy_of_isChain (List.cons_ne_nil sep t)
      (isChain_text sep sep (h t List.mem_cons_self))
    rw [List.flatMap_cons, List.splitBy_append, hfirst,
      ih fun t ht => h t (List.mem_cons_of_mem _ ht)]
    · rfl
    · intro x _ y hy
      cases ts with
      | nil => cases hy
      | cons t' ts =>
        obtain rfl : sep = y := Option.some.inj hy
        simp

/-- Nothing is dropped before another byte. Source: `plugins/webinterface/httpserver.cpp`.
Kind: L -/
theorem dropWhile_sep {sep : UInt8} {t : Text} (h : sep ∉ t) :
    t.dropWhile (fun d => decide (d = sep)) = t := by
  cases t with
  | nil => rfl
  | cons b t =>
    obtain ⟨hb, -⟩ := not_or.mp (mt List.mem_cons.mpr h)
    exact List.dropWhile_cons_of_neg (by simpa using Ne.symm hb)

/-- Fields that are joined are split again. Source: `plugins/webinterface/httpserver.cpp`.
Kind: L -/
theorem splitBy_joined (f : Field) (fs : List Field) :
    (joined (f :: fs)).splitBy (fun _ d => decide (d ≠ '&'.toUInt8)) =
      f.text :: (fs.map Field.text).map ('&'.toUInt8 :: ·) := by
  have hsep : ∀ g : Field, '&'.toUInt8 ∉ g.text := fun g h => (g.mem_text h).2 rfl
  obtain ⟨c, t, hct⟩ : ∃ c t, f.text = c :: t := List.exists_cons_of_ne_nil f.text_ne_nil
  have hfirst := List.splitBy_of_isChain f.text_ne_nil (hct ▸ isChain_text '&'.toUInt8 c fun h =>
    hsep f (hct ▸ List.mem_cons_of_mem c h))
  have hrest := splitBy_flatMap '&'.toUInt8 (l := fs.map Field.text) fun t ht => by
    obtain ⟨g, -, rfl⟩ := List.mem_map.mp ht
    exact hsep g
  rw [List.flatMap_map] at hrest
  rw [joined, List.splitBy_append, hfirst, hrest, List.singleton_append]
  intro x _ y hy
  cases fs with
  | nil => cases hy
  | cons g fs =>
    obtain rfl := Option.some.inj hy
    simp

/-- **The parameters are told apart.**. Source: `TQStringList::split`. Kind: L -/
theorem split_joined (fs : List Field) : split '&'.toUInt8 (joined fs) = fs.map Field.text := by
  have hsep : ∀ f : Field, '&'.toUInt8 ∉ f.text := fun f h => (f.mem_text h).2 rfl
  have hfilter : ∀ ts : List Field,
      (ts.map Field.text).filter (· ≠ []) = ts.map Field.text := by
    intro ts
    refine List.filter_eq_self.mpr fun t ht => ?_
    obtain ⟨f, -, rfl⟩ := List.mem_map.mp ht
    exact decide_eq_true f.text_ne_nil
  cases fs with
  | nil => rfl
  | cons f fs =>
    have hparts : ((fs.map Field.text).map ('&'.toUInt8 :: ·)).map
        (·.dropWhile (· = '&'.toUInt8)) = fs.map Field.text := by
      rw [List.map_map, List.map_map]
      refine List.map_congr_left fun g _ => ?_
      rw [Function.comp_apply, Function.comp_apply, List.dropWhile_cons_of_pos (by simp),
        dropWhile_sep (hsep g)]
    rw [split, splitBy_joined, List.map_cons, dropWhile_sep (hsep f), hparts]
    exact hfilter (f :: fs)

/-- A parameter that is no password leaves the password to be decoded once more.
Source: `HttpServer::checkLogin`. Kind: L -/
theorem loginParameter_other {f : Field} (hf : f.name ≠ latin1 "password")
    (r : Option Text × Option Text) : (loginParameter r f.text).2 = r.2.map decoded := by
  unfold loginParameter
  rw [f.section0_text, if_neg hf]
  split_ifs <;> rfl

/-- That of the password, whatever was read before. Source: `HttpServer::checkLogin`. Kind: L -/
theorem loginParameter_password {f : Field} (hf : f.name = latin1 "password")
    (r : Option Text × Option Text) : (loginParameter r f.text).2 = some (decoded f.value) := by
  unfold loginParameter
  rw [f.section0_text, f.section1_text, hf, if_neg (by decide), if_pos rfl]
  rfl

/-- Without a password among them, the fields only decode what is there again.
Source: `HttpServer::checkLogin`. Kind: L -/
theorem foldl_loginParameter {fs : List Field} (h : ∀ f ∈ fs, f.name ≠ latin1 "password")
    (r : Option Text × Option Text) :
    ((fs.map Field.text).foldl loginParameter r).2 = r.2.map decoded^[fs.length] := by
  induction fs generalizing r with
  | nil => exact (Option.map_id_fun' ▸ rfl : r.2 = r.2.map id)
  | cons f fs ih =>
    rw [List.map_cons, List.foldl_cons, ih fun g hg => h g (List.mem_cons_of_mem _ hg),
      loginParameter_other (h f List.mem_cons_self), Option.map_map, List.length_cons,
      Function.iterate_succ]

/-- **What `checkLogin` reads as the password**: it is decoded once for its own parameter, and once
more for each behind it. Source: `HttpServer::checkLogin`. Kind: P -/
theorem LoginForm.read_eq (form : LoginForm) :
    form.read.2 = some (decoded^[form.back.length + 1] (formEncode form.upper form.password)) := by
  have hzero : form.data.takeWhile (· ≠ 0) = form.data := by
    refine List.takeWhile_eq_self_iff.mpr fun b hb => decide_eq_true ?_
    have hall : ∀ fs : List Field, ∀ c ∈ joined fs, c ≠ 0 := by
      intro fs c hc
      cases fs with
      | nil => cases hc
      | cons f fs =>
        rw [joined] at hc
        rcases List.mem_append.mp hc with hc | hc
        · exact (f.mem_text hc).1
        obtain ⟨g, -, hg⟩ := List.mem_flatMap.mp hc
        rcases List.mem_cons.mp hg with rfl | hg
        · decide
        · exact (g.mem_text hg).1
    exact hall _ b hb
  unfold read
  rw [hzero, data, split_joined, List.map_append, List.foldl_append, List.map_cons,
    List.foldl_cons, foldl_loginParameter form.once, loginParameter_password rfl, Option.map_some]
  rfl

/-! ### The passwords that come back -/

/-- A byte in front that is no percent sign makes no escape. Source: none: infrastructure.
Kind: L -/
theorem quiet_cons {c : UInt8} (hc : c ≠ 37) (t : Text) : quiet (c :: t) = quiet t := by
  rcases t with _ | ⟨a, _ | ⟨b, t⟩⟩
  · rfl
  · rfl
  · rw [quiet, if_neg hc]

/-- Nothing stays nothing. Source: none: infrastructure. Kind: L -/
theorem iterate_nil (n : ℕ) : decoded^[n] [] = [] := Function.iterate_fixed rfl n

/-- Decoded as often as there are parameters from the password on.
Source: `plugins/webinterface/httpserver.cpp`. Kind: L -/
theorem spells_iterate_iff (p : List Char) (upper : Bool) (n : ℕ) :
    Spells (decoded^[n + 1] (formEncode upper p)) p ↔
      Decodable p ∧ (n = 0 ∨ quiet (passwordBytes p) = true) := by
  rw [Function.iterate_succ_apply]
  have hfirst : decoded (formEncode upper p) =
      if startsEscaped (passwordBytes p) = true then formEncode upper p
      else (passwordBytes p).map decodedByte :=
    decodePassword_encode _ (length_encode _ _)
  rw [hfirst]
  by_cases hstart : startsEscaped (passwordBytes p) = true
  · -- nothing is ever decoded, and the text is longer than the password
    rw [if_pos hstart] at hfirst ⊢
    rw [Function.iterate_fixed hfirst]
    refine iff_of_false (fun h => ?_) fun h => ?_
    · have hlen := length_formEncode_of_escaped upper hstart
      have heq := congrArg List.length h
      simp only [List.length_map] at heq
      omega
    · exact Bool.false_ne_true (((startsEscaped_iff h.1.1).mpr h.1.2).symm.trans hstart)
  rw [if_neg hstart]
  rw [Bool.not_eq_true] at hstart
  cases hbs : passwordBytes p with
  | nil =>
    have hp : p = [] := by
      have hlen := length_passwordBytes p
      rw [hbs] at hlen
      exact List.eq_nil_of_length_eq_zero (Nat.le_zero.mp hlen)
    subst hp
    rw [List.map_nil, iterate_nil]
    exact iff_of_true rfl ⟨⟨by simp, by simp⟩, Or.inr rfl⟩
  | cons b bs =>
    -- the first byte is sent as it is, or is the `+` of a space
    have hb : b ≠ 37 ∧ decodedByte b ≠ 37 := by
      rw [hbs] at hstart
      unfold startsEscaped at hstart
      by_cases hu : unreserved b = true
      · have hdec : decodedByte b = b := if_pos hu
        rw [hdec]
        exact ⟨percent_ne hu, percent_ne hu⟩
      · have h32 : b = 32 := by simpa [hu] using hstart
        subst h32
        exact ⟨by decide, by decide⟩
    have hiter := iterate_decoded hb.2 (bs.map decodedByte) n
    rw [← List.map_cons, ← hbs] at hiter
    rw [← hbs]
    constructor
    · intro h
      have hlen : ((passwordBytes p).map decodedByte).length = p.length := by
        rw [passwordBytes_ascii (ascii_of_iterate n h), List.length_map, List.length_map]
      have hsame := congrArg List.length h
      rw [List.length_map, List.length_map] at hsame
      by_cases hn : n = 0 ∨ quiet (bs.map decodedByte) = true
      · rw [if_pos hn] at hiter
        rw [hiter] at h
        have hall := (spells_map_iff p).mp h
        refine ⟨⟨hall, (startsEscaped_iff hall).mp hstart⟩, hn.imp_right fun hq => ?_⟩
        have hmap := map_decodedByte hall
        rw [hbs, List.map_cons] at hmap
        rwa [hbs, quiet_cons hb.1, ← (List.cons.inj hmap).2]
      · rw [if_neg hn] at hiter
        omega
    · rintro ⟨⟨hall, -⟩, hn⟩
      have hmap := map_decodedByte hall
      rw [if_pos (hn.imp_right fun hq => by
        rw [hbs, quiet_cons hb.1] at hq
        rw [hbs, List.map_cons] at hmap
        rwa [(List.cons.inj hmap).2])] at hiter
      rw [hiter]
      exact (spells_map_iff p).mpr hall

/-- **The login form.** The loop ends for every text; what is read as the password is the one that
was sent exactly if the form's can be decoded; and then the user gets in.
Source: `HttpServer::checkLogin`. Kind: P -/
theorem decoded_iff (t : Text) (form : LoginForm) :
    (∃ i, whileM (fun s => (nextEscape s).isSome = true) (fun s => .ok (decodeRound s)) ()
      (t.length + 1) (t, 0) = .ok (decodePassword (t.length + 1) t 0, i)) ∧
    ((∃ password, form.read.2 = some password ∧ Spells password form.password) ↔
      form.Decodable) ∧
    (form.Decodable → ∀ r : Request, r.data = form.data →
      contentType r.content_type = latin1 "application/x-www-form-urlencoded" →
      form.read.1 = some r.settings.username →
      (∀ password, Spells password form.password → r.hexDigest password = r.settings.password) →
      rightLogin r = true) := by
  have hiff : (∃ password, form.read.2 = some password ∧ Spells password form.password) ↔
      form.Decodable := by
    rw [form.read_eq]
    simp only [Option.some.injEq, exists_eq_left']
    rw [spells_iterate_iff, LoginForm.Decodable, List.length_eq_zero_iff]
  refine ⟨decodePassword_ends t 0 (by omega), hiff, fun hd r hdata htype huser hdigest => ?_⟩
  obtain ⟨password, hread, hspells⟩ := hiff.mpr hd
  have hboth : (split '&'.toUInt8 (r.data.takeWhile (· ≠ 0))).foldl loginParameter (none, none) =
      (some r.settings.username, some password) := by
    rw [hdata]
    exact Prod.ext huser hread
  unfold rightLogin
  rw [if_neg (not_not_intro htype), hboth]
  exact decide_eq_true ⟨rfl, hdigest password hspells⟩

/-- The user name `u`. Kind: D -/
def userField : Field := ⟨latin1 "username", latin1 "u", plain_of_all (by decide)⟩

/-- The button of the page. Kind: D -/
def buttonField : Field := ⟨latin1 "Login", latin1 "Sign+in", plain_of_all (by decide)⟩

/-- The password `a+` comes back as `a!`. Source: `plugins/webinterface/httpserver.cpp`. Kind: L -/
theorem plus_password : ¬ ∀ form : LoginForm,
    ∃ password, form.read.2 = some password ∧ Spells password form.password := by
  intro h
  obtain ⟨password, hread, hspells⟩ := h { front := [userField], password := ['a', '+'] }
  have hfound : (LoginForm.read { front := [userField], password := ['a', '+'] }).2 =
      some (latin1 "a!") := by
    decide +kernel
  obtain rfl := Option.some.inj (hfound.symm.trans hread)
  revert hspells
  decide

/-- The password `a%30` is decoded twice if a button stands behind it. -/
example : (LoginForm.read { password := ['a', '%', '3', '0'] }).2 = some (latin1 "a%30") ∧
    (LoginForm.read { password := ['a', '%', '3', '0'], back := [buttonField] }).2 =
      some (latin1 "a0") := by
  decide +kernel

end KTorrent.Web
