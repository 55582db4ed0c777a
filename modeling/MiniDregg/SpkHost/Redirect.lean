import Mathlib.Data.List.TakeWhile
import MiniDregg.SpkHost.Response

/-!
# Where a redirect leads

A browser reads the `Location` value by the URL standard: it strips control characters and
spaces at both ends, deletes tabs and line ends anywhere, takes a backslash for a slash, and
then a scheme or two leading slashes name another origin. `relativeLocation` looks at the
value before the deletion. It rules out every scheme and backslash, and every pair of
leading slashes but one that tabs keep apart.

## Implementation notes

What the browser makes of an absolute URL and of the text after two slashes is a parameter:
the parsers of hosts and schemes are not of this repository.
-/

namespace MiniDregg.SpkHost

open Fallible Text List

/-! ## The browser's reading -/

def isControlOrSpace (c : Char) : Bool := decide (c.toNat ≤ 0x20)

def isTabOrNewline (c : Char) : Bool := c == '\t' || c == '\n' || c == '\r'

/-- The text that the URL parser works on. -/
def browserInput (t : Text) : Text :=
  (((t.dropWhile isControlOrSpace).reverse.dropWhile isControlOrSpace).reverse).filter
    fun c => !isTabOrNewline c

def isSlash (c : Char) : Bool := c == '/' || c == '\\'

def isSchemeChar (c : Char) : Bool := c.isAlphanum || c == '+' || c == '-' || c == '.'

def hasScheme (t : Text) : Bool :=
  (t.head?.any Char.isAlpha) && (t.dropWhile isSchemeChar).head? == some ':'

/-- The origin that a location leads to from a page of the origin `base`; there is none when
the URL does not parse. -/
def resolve {O : Type} (base : O) (absolute authority : Text → Option O) (location : Text) :
    Option O :=
  let t := browserInput location
  if hasScheme t then absolute t
  else
    match t with
    | a :: b :: rest =>
      if isSlash a && isSlash b then authority (rest.dropWhile isSlash) else some base
    | _ => some base

/-! ## What the host lets through -/

variable {value v t r : Text} {origin : Option Text}

/-- What is known of a location that was let through. -/
structure Accepted (v : Text) : Prop where
  plain : ∀ c ∈ v, isRefused c = false
  ne_nil : v ≠ []
  trimmed : v = trim v
  noSlashes : ¬"//".toList <+: v
  noBackslash : '\\' ∉ v
  noColon : ':' ∉ v.takeWhile fun c => !endsSegment c

theorem field_eq_ok (h : field t = .ok r) : r = t ∧ ∀ c ∈ t, isRefused c = false := by
  obtain ⟨hok, h⟩ := check_bind_eq_ok.1 h
  cases h
  refine ⟨rfl, ?_⟩
  have hany := (Bool.or_eq_false_iff.1 (refuseIf_eq_ok.1 hok)).2
  intro c hc
  rw [any_eq_false] at hany
  simpa using hany c hc

theorem relativeLocation_eq_ok (h : relativeLocation value origin = .ok v) :
    v = withoutOrigin value origin ∧ Accepted v := by
  unfold relativeLocation at h
  obtain ⟨t, ht, h⟩ := bind_eq_ok.1 h
  obtain ⟨-, hplain⟩ := field_eq_ok ht
  obtain ⟨hok, h⟩ := check_bind_eq_ok.1 h
  cases h
  have hchecks := refuseIf_eq_ok.1 hok
  simp only [Bool.or_eq_false_iff, isEmpty_eq_false_iff, bne_eq_false_iff_eq] at hchecks
  obtain ⟨⟨⟨⟨hne, htrim⟩, hslashes⟩, hback⟩, hcolon⟩ := hchecks
  refine ⟨rfl, hplain, hne, htrim, ?_, ?_, ?_⟩
  · intro hpre
    rw [ isPrefixOf_iff_prefix.2 hpre] at hslashes
    cases hslashes
  · simpa using hback
  · simpa using hcolon

section Reading
variable {c : Char} {rest : Text}

theorem isWhitespace_of_tab (h : isTabOrNewline c) : isWhitespace c = true := by
  simp only [isTabOrNewline, Bool.or_eq_true, beq_iff_eq] at h
  rcases h with (rfl | rfl) | rfl <;> decide

/-- A text without refused characters has no control character but the tab. -/
theorem isWhitespace_of_isControlOrSpace (hplain : isRefused c = false)
    (h : isControlOrSpace c = true) : isWhitespace c = true := by
  simp only [isRefused, Bool.or_eq_false_iff, Bool.and_eq_false_iff, decide_eq_false_iff_not,
    bne_eq_false_iff_eq, beq_eq_false_iff_ne] at hplain
  have hle : c.toNat ≤ 0x20 := of_decide_eq_true h
  rcases hplain.1 with hge | rfl
  · have heq : c.toNat = 0x20 := by omega
    simp [isWhitespace, heq]
  · decide

variable {p q : Char → Bool}

theorem dropWhile_eq_self_of_head (h : ∀ c ∈ t.head?, p c = false) : t.dropWhile p = t := by
  cases t with
  | nil => rfl
  | cons c t => rw [dropWhile_cons_of_neg (by simpa using h c rfl)]

/-- The ends of a trimmed text are not white space. -/
theorem head_of_trimmed (h : v = trim v) : ∀ c ∈ v.head?, isWhitespace c = false := by
  intro c hc
  have hle : (trim v).length ≤ (v.dropWhile isWhitespace).length := by
    unfold trim
    rw [length_reverse]
    exact (dropWhile_sublist _).length_le.trans (by rw [length_reverse])
  cases hv : v with
  | nil =>
    rw [hv] at hc
    cases hc
  | cons d t =>
    rw [hv] at hc
    cases hc
    by_contra hws
    rw [Bool.not_eq_false] at hws
    have hlt : (v.dropWhile isWhitespace).length ≤ t.length := by
      rw [hv, dropWhile_cons_of_pos hws]
      exact (dropWhile_sublist _).length_le
    rw [← h, hv, length_cons] at hle
    rw [hv] at hlt
    omega

theorem last_of_trimmed (h : v = trim v) : ∀ c ∈ v.reverse.head?, isWhitespace c = false := by
  have hrev : v.reverse = (v.dropWhile isWhitespace).reverse.dropWhile isWhitespace := by
    conv_lhs => rw [h]
    rw [trim, reverse_reverse]
  rw [hrev]
  intro c hc
  have hnot := head?_dropWhile_not isWhitespace (v.dropWhile isWhitespace).reverse
  rw [Option.mem_def.1 hc] at hnot
  exact hnot

theorem Accepted.browserInput_eq (h : Accepted v) :
    browserInput v = v.filter fun c => !isTabOrNewline c := by
  have hends : ∀ t : Text, (∀ c ∈ t, c ∈ v) → (∀ c ∈ t.head?, isWhitespace c = false) →
      t.dropWhile isControlOrSpace = t := by
    intro t ht hhead
    refine dropWhile_eq_self_of_head fun c hc => ?_
    by_contra hctl
    rw [Bool.not_eq_false] at hctl
    have hws := isWhitespace_of_isControlOrSpace (h.plain c (ht c (mem_of_mem_head? hc))) hctl
    rw [hhead c hc] at hws
    cases hws
  unfold browserInput
  rw [hends v (fun _ => id) (head_of_trimmed h.trimmed),
    hends v.reverse (fun _ => mem_reverse.1) (last_of_trimmed h.trimmed), reverse_reverse]

/-- Deleting characters that end no segment deletes them from the first segment. -/
theorem takeWhile_filter (h : ∀ c, p c = false → q c = true) (t : Text) :
    (t.filter p).takeWhile q = (t.takeWhile q).filter p := by
  induction t with
  | nil => rfl
  | cons c t ih =>
    cases hp : p c with
    | false =>
      rw [filter_cons_of_neg (by simp [hp]), ih, takeWhile_cons_of_pos (h c hp),
        filter_cons_of_neg (by simp [hp])]
    | true =>
      rw [filter_cons_of_pos hp]
      cases hq : q c with
      | false =>
        rw [takeWhile_cons_of_neg (by simp [hq]),
          takeWhile_cons_of_neg (by simp [hq])]
        rfl
      | true =>
        rw [takeWhile_cons_of_pos hq, takeWhile_cons_of_pos hq,
          filter_cons_of_pos hp, ih]

theorem not_endsSegment_of_isSchemeChar (h : isSchemeChar c = true) : endsSegment c = false := by
  by_contra hends
  rw [Bool.not_eq_false] at hends
  simp only [endsSegment, Bool.or_eq_true, beq_iff_eq] at hends
  rcases hends with (rfl | rfl) | rfl <;> exact absurd h (by decide)

/-- A scheme ends at a colon in the first segment. -/
theorem colon_mem_of_hasScheme (h : hasScheme t = true) :
    ':' ∈ t.takeWhile fun c => !endsSegment c := by
  have hcolon := beq_iff_eq.1 (Bool.and_eq_true_iff.1 h).2
  obtain ⟨rest, hrest⟩ := head?_eq_some_iff.1 hcolon
  have hsplit := takeWhile_append_dropWhile (p := isSchemeChar) (l := t)
  rw [← hsplit, hrest]
  rw [takeWhile_append_of_pos]
  · rw [takeWhile_cons_of_pos (by decide)]
    simp
  · intro c hc
    simp [not_endsSegment_of_isSchemeChar (mem_takeWhile_imp hc)]

theorem Accepted.no_scheme (h : Accepted v) : hasScheme (browserInput v) = false := by
  by_contra hscheme
  rw [Bool.not_eq_false] at hscheme
  have hcolon := colon_mem_of_hasScheme hscheme
  have htab : ∀ c, (!isTabOrNewline c) = false → (!endsSegment c) = true := by
    intro c hc
    simp only [isTabOrNewline, Bool.not_eq_false', Bool.or_eq_true, beq_iff_eq] at hc
    rcases hc with (rfl | rfl) | rfl <;> decide
  rw [h.browserInput_eq, takeWhile_filter htab] at hcolon
  exact h.noColon (mem_of_mem_filter hcolon)

/-- A text that starts with a slash after its tabs are deleted. -/
theorem exists_replicate_of_filter {w : Text} (hplain : ∀ c ∈ w, isRefused c = false)
    (h : (w.filter fun c => !isTabOrNewline c) = '/' :: rest) :
    ∃ n tail, w = List.replicate n '\t' ++ '/' :: tail ∧
      (tail.filter fun c => !isTabOrNewline c) = rest := by
  induction w with
  | nil => cases h
  | cons c w ih =>
    cases htab : isTabOrNewline c with
    | false =>
      rw [filter_cons_of_pos (by simp [htab])] at h
      cases h
      exact ⟨0, w, rfl, rfl⟩
    | true =>
      rw [filter_cons_of_neg (by simp [htab])] at h
      obtain ⟨n, tail, hw, htail⟩ := ih (fun d hd => hplain d (mem_cons_of_mem c hd)) h
      have hc : c = '\t' := by
        have hnot := hplain c mem_cons_self
        simp only [isTabOrNewline, Bool.or_eq_true, beq_iff_eq] at htab
        rcases htab with (rfl | rfl) | rfl
        · rfl
        · exact absurd hnot (by decide)
        · exact absurd hnot (by decide)
      refine ⟨n + 1, tail, ?_, htail⟩
      rw [hc, hw]
      rfl

/-- The values that name another origin although they do not start with two slashes. -/
def SlashTabs (v rest : Text) : Prop :=
  ∃ n, v = '/' :: (List.replicate (n + 1) '\t' ++ '/' :: rest)

theorem browserInput_slashTabs (h : Accepted v) (hv : SlashTabs v rest) :
    browserInput v = '/' :: '/' :: rest.filter fun c => !isTabOrNewline c := by
  obtain ⟨n, rfl⟩ := hv
  rw [h.browserInput_eq, filter_cons_of_pos (by decide), filter_append,
    filter_cons_of_pos (by decide)]
  rw [filter_eq_nil_iff.2]
  · rfl
  · intro c hc
    rw [eq_of_mem_replicate hc]
    decide

/-- Two slashes lead an accepted value only when tabs keep them apart. -/
theorem Accepted.slashTabs {a b : Char} (h : Accepted v) (hv : browserInput v = a :: b :: rest)
    (ha : isSlash a = true) (hb : isSlash b = true) : ∃ tail, SlashTabs v tail := by
  rw [h.browserInput_eq] at hv
  have hslash : ∀ c ∈ v.filter (fun c => !isTabOrNewline c), isSlash c = true → c = '/' := by
    intro c hc hslash
    simp only [isSlash, Bool.or_eq_true, beq_iff_eq] at hslash
    rcases hslash with rfl | rfl
    · rfl
    · exact absurd (mem_of_mem_filter hc) h.noBackslash
  obtain rfl := hslash a (by rw [hv]; simp) ha
  obtain rfl := hslash b (by rw [hv]; simp) hb
  obtain ⟨c, w, hw⟩ := exists_cons_of_ne_nil h.ne_nil
  have hc : isTabOrNewline c = false := by
    by_contra htab
    rw [Bool.not_eq_false] at htab
    have hws := head_of_trimmed h.trimmed c (by rw [hw]; rfl)
    rw [isWhitespace_of_tab htab] at hws
    cases hws
  rw [hw, filter_cons_of_pos (by simp [hc])] at hv
  obtain ⟨rfl, hrest⟩ := List.cons.inj hv
  have hplain : ∀ d ∈ w, isRefused d = false := fun d hd =>
    h.plain d (hw ▸ mem_cons_of_mem _ hd)
  obtain ⟨n, tail, hn, -⟩ := exists_replicate_of_filter hplain hrest
  refine ⟨tail, ?_⟩
  cases n with
  | zero =>
    exfalso
    apply h.noSlashes
    rw [hw, hn]
    exact ⟨tail, rfl⟩
  | succ n => exact ⟨n, by rw [hw, hn]⟩

end Reading

section Emission
variable {headers : Text}

theorem add_eq_ok {name : Text} (h : add headers name value = .ok r) :
    r = headers ++ name ++ ": ".toList ++ value ++ "\r\n".toList := by
  obtain ⟨_, -, h⟩ := bind_eq_ok.1 h
  obtain ⟨_, -, h⟩ := bind_eq_ok.1 h
  obtain ⟨-, h⟩ := check_bind_eq_ok.1 h
  cases h
  rfl

theorem headers_of_add {name : Text} (h : add headers name value = .ok r) : headers <+: r := by
  rw [add_eq_ok h, append_assoc, append_assoc, append_assoc]
  exact prefix_append _ _

theorem headers_of_addExtras {seen : Bool} {extras : List Header}
    (h : addExtras headers seen extras = .ok r) : headers <+: r := by
  induction extras generalizing headers seen with
  | nil =>
    cases h
    exact prefix_rfl
  | cons e extras ih =>
    obtain ⟨seen', -, h⟩ := bind_eq_ok.1 h
    obtain ⟨lines, hadd, h⟩ := bind_eq_ok.1 h
    exact (headers_of_add hadd).trans (ih h)

variable {cookieExpires : Int → Result Text}

theorem headers_of_addCookies {cookies : List SetCookie}
    (h : addCookies cookieExpires headers cookies = .ok r) : headers <+: r := by
  induction cookies generalizing headers with
  | nil =>
    cases h
    exact prefix_rfl
  | cons c cookies ih =>
    obtain ⟨rendered, -, h⟩ := bind_eq_ok.1 h
    obtain ⟨lines, hadd, h⟩ := bind_eq_ok.1 h
    exact (headers_of_add hadd).trans (ih h)

/-- The head of a redirect starts with its location. -/
theorem location_of_serialize {response : WebResponse}
    {headRequest permanent switchToGet : Bool} {location : Text}
    {out : Text × List UInt8} (hresult : response.result = .redirect permanent switchToGet location)
    (hv : relativeLocation location origin = .ok v)
    (h : serializeForOrigin cookieExpires response headRequest origin = .ok out) :
    ∃ status tail, out.1 = "HTTP/1.1 ".toList ++ natText status ++ " Redirect\r\n".toList ++
      "Location: ".toList ++ v ++ "\r\n".toList ++ tail := by
  obtain ⟨-, h⟩ := check_bind_eq_ok.1 h
  obtain ⟨framed, hframed, h⟩ := bind_eq_ok.1 h
  obtain ⟨-, h⟩ := check_bind_eq_ok.1 h
  obtain ⟨extras, hextras, h⟩ := bind_eq_ok.1 h
  obtain ⟨cookies, hcookies, h⟩ := bind_eq_ok.1 h
  obtain ⟨-, h⟩ := check_bind_eq_ok.1 h
  cases h
  rw [hresult] at hframed
  simp only [frame, hv, ok_bind] at hframed
  obtain ⟨lines, hlines, hframed⟩ := bind_eq_ok.1 hframed
  cases hframed
  obtain ⟨more, hmore⟩ := (headers_of_addExtras hextras).trans (headers_of_addCookies hcookies)
  rw [← hmore, add_eq_ok hlines]
  have hreason : " Redirect\r\n".toList = ' ' :: "Redirect".toList ++ "\r\n".toList := by decide
  have hname : "Location: ".toList = "Location".toList ++ ": ".toList := by decide
  rw [hreason, hname]
  simp only [append_assoc, nil_append, cons_append]
  exact ⟨_, _, rfl⟩

end Emission

/-- A location that the host lets through, and that it sends in the `Location` line, stays on
the page's origin exactly when it is not a slash, one or more tabs and a slash, or the text
after these names the page's own origin again. -/
theorem location_stays_iff {location v : Text} {origin : Option Text}
    (h : relativeLocation location origin = .ok v) {O : Type} (base : O)
    (absolute authority : Text → Option O) :
    (resolve base absolute authority v = some base ↔
      ∀ rest, SlashTabs (withoutOrigin location origin) rest →
        authority ((rest.filter fun c => !isTabOrNewline c).dropWhile isSlash) = some base) ∧
    ∀ cookieExpires response headRequest permanent switchToGet out,
      response.result = .redirect permanent switchToGet location →
      serializeForOrigin cookieExpires response headRequest origin = .ok out →
      ∃ status tail, out.1 = "HTTP/1.1 ".toList ++ natText status ++ " Redirect\r\n".toList ++
        "Location: ".toList ++ v ++ "\r\n".toList ++ tail := by
  obtain ⟨hv, haccepted⟩ := relativeLocation_eq_ok h
  refine ⟨?_, fun _ _ _ _ _ _ hresult hout => location_of_serialize hresult h hout⟩
  rw [← hv]
  constructor
  · intro hstays rest hrest
    rw [resolve, haccepted.no_scheme, browserInput_slashTabs haccepted hrest] at hstays
    exact hstays
  · intro hall
    unfold resolve
    dsimp only
    rw [haccepted.no_scheme, if_neg (by simp)]
    split
    next a b rest heq =>
      split
      next hslashes =>
        obtain ⟨ha, hb⟩ := Bool.and_eq_true_iff.1 hslashes
        obtain ⟨tail, htail⟩ := haccepted.slashTabs heq ha hb
        have hinput := browserInput_slashTabs haccepted htail
        cases heq.symm.trans hinput
        exact hall tail htail
      · rfl
    · rfl

/-- The host named at the start of a text, up to the path. -/
def hostName (t : Text) : Option Text := some (t.takeWhile fun c => !endsSegment c)

/-- An absolute location on the grain's own origin is sent as its path and stays. -/
theorem location_stays_ownOrigin :
    relativeLocation "https://grain.example/wp-login".toList (some "https://grain.example".toList) =
        .ok "/wp-login".toList ∧
      resolve "grain.example".toList (fun _ => none) hostName "/wp-login".toList =
        some "grain.example".toList := by
  have hok : relativeLocation "https://grain.example/wp-login".toList
      (some "https://grain.example".toList) = .ok "/wp-login".toList := by decide
  refine ⟨hok, (location_stays_iff hok _ _ _).1.2 ?_⟩
  rw [← (relativeLocation_eq_ok hok).1]
  rintro rest ⟨n, hn⟩
  have hhead := congrArg (fun t : Text => t[1]?) hn
  simp [replicate_succ] at hhead

/-- A slash, a tab and a slash pass the check, and a browser follows them to another host. -/
theorem location_leaves_over_tab :
    relativeLocation "/\t/evil.example/".toList (some "https://grain.example".toList) =
        .ok "/\t/evil.example/".toList ∧
      resolve "grain.example".toList (fun _ => none) hostName "/\t/evil.example/".toList =
        some "evil.example".toList := by
  decide

end MiniDregg.SpkHost
