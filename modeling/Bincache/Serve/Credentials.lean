import Bincache.Boot
import Bincache.Codecs
import Bincache.Serve.Framing

/-!
# Who may write

A credential is written down in two places, in the configuration of the server and in the header of
a client, and each side cleans it up in its own way. The lines of the token file are trimmed and the
flags are not; a header value is trimmed by the HTTP parser, the text after `Bearer` once more, and
the password of `Basic` is left as it is. `Honours` says that both sides mean the same texts, and
`honours_iff` when they do: a flag with white space around it is a credential that `Bearer` cannot
present.
-/

namespace Bincache

namespace Http

open Text (trim isWhiteSpace eqIgnoreAsciiCase)

/-! ## The header line that counts -/

/-- The value of the last line of a field that the parser takes for one. -/
def Last (name : Text) (lines : List Text) (value : Text) : Prop :=
  ∃ before line after, lines = before ++ line :: after ∧ Seen name line value
    ∧ ∀ line' ∈ after, ∀ value', ¬Seen name line' value'

theorem last_cons {name line value : Text} {lines : List Text} :
    Last name (line :: lines) value
      ↔ Last name lines value
        ∨ Seen name line value ∧ ∀ line' ∈ lines, ∀ value', ¬Seen name line' value' := by
  constructor
  · rintro ⟨before, line', after, heq, hseen, hnone⟩
    rcases before with _ | ⟨first, before⟩
    · obtain ⟨rfl, rfl⟩ := List.cons.inj heq
      exact .inr ⟨hseen, hnone⟩
    · exact .inl ⟨before, line', after, (List.cons.inj heq).2, hseen, hnone⟩
  · rintro (⟨before, line', after, rfl, hseen, hnone⟩ | ⟨hseen, hnone⟩)
    · exact ⟨line :: before, line', after, rfl, hseen, hnone⟩
    · exact ⟨[], line, lines, rfl, hseen, hnone⟩

/-- A header line sets the credential if it is of that field, and else leaves it alone. -/
theorem absorb_authorization {request request' : Request} {line : Text}
    (h : absorb request line = .ok request') :
    (∃ value, Seen authorization line value ∧ request'.authorization = some value)
      ∨ (∀ value, ¬Seen authorization line value)
        ∧ request'.authorization = request.authorization := by
  have hsets := (absorbs_of_absorb h).authorization
  rw [Sets] at hsets
  rcases hvalue : valueOf authorization line with - | value
  · rw [hvalue] at hsets
    exact .inr ⟨not_seen hvalue, hsets⟩
  · rw [hvalue] at hsets
    exact .inl ⟨value, seen_iff.mpr hvalue, hsets⟩

theorem foldlM_authorization {lines : List Text} {request request' : Request} {value : Text}
    (h : lines.foldlM absorb request = .ok request') :
    request'.authorization = some value ↔ Last authorization lines value
      ∨ request.authorization = some value
        ∧ ∀ line ∈ lines, ∀ value', ¬Seen authorization line value' := by
  induction lines generalizing request with
  | nil =>
    cases h
    have hnone : ¬Last authorization [] value := by
      rintro ⟨before, line, after, heq, -⟩
      exact List.append_ne_nil_of_right_ne_nil before (List.cons_ne_nil line after) heq.symm
    simp [hnone]
  | cons line lines ih =>
    rw [List.foldlM_cons] at h
    cases hline : absorb request line with
    | error error =>
      rw [hline] at h
      cases h
    | ok next =>
      rw [hline] at h
      rw [ih h, last_cons, List.forall_mem_cons]
      obtain ⟨value', hseen, hnext⟩ | ⟨hnot, hnext⟩ := absorb_authorization hline
      · have hfield : Field authorization line value' := hseen.field (by decide)
        have hvalue : some value' = some value ↔ Seen authorization line value :=
          ⟨fun heq ↦ Option.some.inj heq ▸ hseen, fun h' ↦ congrArg some (h'.unique hfield)⟩
        rw [hnext, hvalue]
        have hnot : ¬∀ value', ¬Seen authorization line value' := fun hall ↦ hall _ hseen
        tauto
      · rw [hnext]
        have := hnot value
        tauto

private theorem authorization_requestLine {line : Text} {request : Request}
    (h : requestLine line = .ok request) : request.authorization = none := by
  rw [requestLine] at h
  split at h
  · split at h
    · split at h
      · cases h
        rfl
      · cases h
    · cases h
  · cases h

/-- The credential of a request is the value of the last `Authorization` line. -/
theorem authorization_of_parse {head : Bytes} {request : Request} {value : Text}
    (h : parse head = .ok request) :
    request.authorization = some value ↔ Last authorization (headerLines head) value := by
  obtain ⟨line, first, hfirst, hlines⟩ := foldlM_of_parse h
  rw [foldlM_authorization hlines, authorization_requestLine hfirst]
  simp

/-! ## Heads that present a value -/

/-- The `Authorization` line that counts has this value, up to the white space around it. -/
def Presents (head : Bytes) (value : Text) : Prop :=
  ∃ lines name before after lines',
    headerLines head = lines ++ (name ++ ':' :: (before ++ value ++ after)) :: lines'
      ∧ eqIgnoreAsciiCase name authorization = true
      ∧ (∀ c ∈ before, isWhiteSpace c = true) ∧ (∀ c ∈ after, isWhiteSpace c = true)
      ∧ ∀ line ∈ lines', ∀ value', ¬Seen authorization line value'

theorem Presents.authorization {head : Bytes} {request : Request} {value : Text}
    (hparse : parse head = .ok request) (h : Presents head value) :
    request.authorization = some (trim value) := by
  obtain ⟨lines, name, before, after, lines', hlines, hname, hbefore, hafter, hnone⟩ := h
  rw [authorization_of_parse hparse]
  refine ⟨lines, _, lines', hlines, ⟨name, _, ?_, (Text.trim_pad hbefore hafter).symm, hname⟩,
    hnone⟩
  exact Text.splitOnce_eq_some.mpr ⟨rfl, Text.notMem_of_eqIgnoreAsciiCase hname (by decide)⟩

theorem presents_of_authorization {head : Bytes} {request : Request} {value : Text}
    (hparse : parse head = .ok request) (h : request.authorization = some value) :
    Presents head value := by
  obtain ⟨lines, line, lines', hlines, ⟨name, rest, hsplit, rfl, hname⟩, hnone⟩ :=
    (authorization_of_parse hparse).mp h
  obtain ⟨rfl, -⟩ := Text.splitOnce_eq_some.mp hsplit
  obtain ⟨before, after, hrest, hbefore, hafter⟩ := Text.exists_trim rest
  refine ⟨lines, name, before, after, lines', ?_, hname, hbefore, hafter, hnone⟩
  rw [hlines, ← hrest]

/-- The head of an upload of nothing that presents a value. -/
def presenting (value : Text) : Bytes :=
  Text.utf8 ("PUT / HTTP/1.1".toList ++ '\r' :: '\n' ::
    (("Authorization: ".toList ++ value) ++ '\r' :: '\n' :: ['\r', '\n']))

theorem exists_presents {value : Text} (h : '\n' ∉ value) :
    ∃ head request, parse head = .ok request ∧ Presents head value := by
  have hfirst : ¬['\r', '\n'] <:+: "PUT / HTTP/1.1".toList := by decide
  have hline : ¬['\r', '\n'] <:+: "Authorization: ".toList ++ value := by
    rw [Text.pair_infix_append, not_or, not_or]
    refine ⟨by decide, fun hend ↦ absurd hend.1 (by decide), fun hbreak ↦ ?_⟩
    exact h (hbreak.subset (by simp))
  -- without a line feed the value stays on its line, whatever else it holds
  have hlines : Text.splitCrlfTerminator ("PUT / HTTP/1.1".toList ++ '\r' :: '\n' ::
      (("Authorization: ".toList ++ value) ++ '\r' :: '\n' :: ['\r', '\n']))
        = ["PUT / HTTP/1.1".toList, "Authorization: ".toList ++ value, []] := by
    rw [Text.splitCrlfTerminator, Text.splitCrlf_append hfirst, Text.splitCrlf_append hline]
    rfl
  have hheader : headerLines (presenting value) = ["Authorization: ".toList ++ value] := by
    rw [headerLines, presenting, Text.fromUtf8_utf8]
    dsimp only
    rw [hlines]
    simp
  have hcut : Text.splitOnce [':'] ("Authorization: ".toList ++ value)
      = some ("Authorization".toList, ' ' :: value) :=
    Text.splitOnce_eq_some.mpr ⟨rfl, by decide⟩
  have habsorb : ∀ request, absorb request ("Authorization: ".toList ++ value)
      = .ok { request with authorization := some (trim (' ' :: value)) } := by
    intro request
    rw [absorb, hcut]
    rfl
  refine ⟨presenting value, ⟨.put, "/".toList, .empty, .keep, .none, none,
    some (trim (' ' :: value))⟩, ?_, ?_⟩
  · rw [parse, presenting, Text.fromUtf8_utf8]
    dsimp only
    rw [hlines]
    have hrequest : requestLine "PUT / HTTP/1.1".toList = .ok ⟨.put, "/".toList, .empty, .keep,
        .none, none, none⟩ := by decide
    dsimp only
    rw [hrequest, List.filter_cons_of_pos (by simp), List.filter_cons_of_neg (by simp),
      List.filter_nil]
    change List.foldlM absorb _ _ = _
    rw [List.foldlM_cons, habsorb]
    rfl
  · refine ⟨[], "Authorization".toList, [' '], [], [], ?_, by decide,
      List.forall_mem_singleton.mpr rfl, by simp, by simp⟩
    rw [hheader, List.append_nil]
    rfl

end Http

/-! ## What both sides make of a credential -/

namespace Cache

open Text (trim isWhiteSpace eqIgnoreAsciiCase)

section

variable [Crates] {cache : Cache} {inputs : Set Bytes} {kept : List Text}

/-- A value that may write, in whatever head it is presented. -/
def Accepts (cache : Cache) (value : Text) : Prop :=
  (∀ head request, Http.parse head = .ok request → Http.Presents head value →
    cache.admission request = .admitted)
    ∧ ∃ head request, Http.parse head = .ok request ∧ Http.Presents head value

/-- Every credential that is kept may write under both schemes, and nothing else may. `inputs` are
the byte strings that are digested. -/
structure Honours (cache : Cache) (inputs : Set Bytes) (kept : List Text) : Prop where
  bearer : ∀ token ∈ kept, '\n' ∉ token → ∀ scheme,
    eqIgnoreAsciiCase scheme "Bearer".toList = true → Accepts cache (scheme ++ ' ' :: token)
  basic : ∀ token ∈ kept, '\n' ∉ token → ∀ scheme user,
    eqIgnoreAsciiCase scheme "Basic".toList = true → ':' ∉ user →
      Accepts cache (scheme ++ ' ' :: Crates.base64Encode (Text.utf8 (user ++ ':' :: token)))
  only : ∀ head request presented, Http.parse head = .ok request →
    request.authorization.bind credential = some presented → Text.utf8 presented ∈ inputs →
    cache.admission request = .admitted →
      ∃ value, Http.Presents head value ∧ ∃! token, token ∈ kept ∧ Carries value token

theorem admission_eq_admitted {request : Http.Request} :
    cache.admission request = .admitted ↔ ∃ value text, request.authorization = some value
      ∧ Carries value text ∧ Sha256.digest (Text.utf8 text) ∈ cache.tokens.digests := by
  rw [admission]
  cases hcredential : request.authorization.bind credential with
  | none =>
    refine iff_of_false Admission.noConfusion ?_
    rintro ⟨value, text, hvalue, hcarries, -⟩
    rw [hvalue, Option.bind_some, credential_eq_some.mpr hcarries] at hcredential
    cases hcredential
  | some text =>
    obtain ⟨value, hvalue, htext⟩ := Option.bind_eq_some_iff.mp hcredential
    rw [Tokens.admits_eq_admitted]
    constructor
    · exact fun hmem ↦ ⟨value, text, hvalue, credential_eq_some.mp htext, hmem⟩
    · rintro ⟨value', text', hvalue', hcarries, hmem⟩
      rw [hvalue', Option.bind_some, credential_eq_some.mpr hcarries] at hcredential
      exact Option.some.inj hcredential ▸ hmem

/-- Where digests tell texts apart, what is admitted is what is kept. -/
theorem mem_digests_new {text : Text} (hcollision : Crates.CollisionFree inputs)
    (hkept : ∀ token ∈ kept, Text.utf8 token ∈ inputs) (htext : Text.utf8 text ∈ inputs) :
    Sha256.digest (Text.utf8 text) ∈ (Tokens.new kept).digests ↔ text ∈ kept := by
  refine ⟨fun hmem ↦ ?_, List.mem_map_of_mem⟩
  obtain ⟨token, htoken, hdigest⟩ := List.mem_map.mp hmem
  have hbytes := hcollision (hkept token htoken) htext (congrArg Sha256.bytes hdigest)
  exact Text.utf8_injective hbytes ▸ htoken

omit [Crates] in
/-- White space at the end of a header value is the end of its text, unless that is all white space:
then the value is a bare scheme. -/
theorem trim_scheme {scheme : Text} (hscheme : ∀ c ∈ scheme, isWhiteSpace c = false)
    (hne : scheme ≠ []) (text : Text) :
    (trim text = [] → trim (scheme ++ ' ' :: text) = scheme)
      ∧ (trim text ≠ [] →
        ∃ rest, trim (scheme ++ ' ' :: text) = scheme ++ ' ' :: rest ∧ trim rest = trim text) := by
  obtain ⟨before, after, htext, hbefore, hafter⟩ := Text.exists_trim text
  have hspace : ∀ c ∈ ' ' :: before, isWhiteSpace c = true :=
    List.forall_mem_cons.mpr ⟨rfl, hbefore⟩
  refine ⟨fun hnil ↦ ?_, fun hrest ↦ ?_⟩
  · have hpad : ∀ c ∈ ' ' :: (before ++ after), isWhiteSpace c = true := by
      rw [← List.cons_append]
      exact List.forall_mem_append.mpr ⟨hspace, hafter⟩
    rw [hnil, List.append_nil] at htext
    have htrim := @Text.trim_pad [] scheme _ (fun _ h ↦ absurd h List.not_mem_nil) hpad
    rw [List.nil_append, ← htext] at htrim
    rw [htrim, Text.trim_eq_self (Text.trimmed_of_forall hscheme)]
  · refine ⟨before ++ trim text, ?_, ?_⟩
    · have htrim := @Text.trim_pad [] (scheme ++ ' ' :: (before ++ trim text)) _
        (fun _ h ↦ absurd h List.not_mem_nil) hafter
      rw [List.nil_append, List.append_assoc, List.cons_append, ← htext] at htrim
      rw [htrim]
      refine Text.trim_eq_self ⟨fun c hc ↦ ?_, fun c hc ↦ ?_⟩
      · rw [List.head?_append_of_ne_nil _ hne] at hc
        exact hscheme c (List.mem_of_mem_head? hc)
      · rw [List.getLast?_append_of_ne_nil _ (List.cons_ne_nil _ _), ← List.cons_append,
          List.getLast?_append_of_ne_nil _ hrest] at hc
        exact (Text.trimmed_trim text).last c hc
    · have htrim := @Text.trim_pad before (trim text) [] hbefore
        (fun _ h ↦ absurd h List.not_mem_nil)
      rw [List.append_nil] at htrim
      rw [htrim, Text.trim_eq_self (Text.trimmed_trim text)]

/-- `Bearer` presents a credential without the white space around it, if anything is left. -/
theorem carries_bearer {scheme token text : Text}
    (hscheme : eqIgnoreAsciiCase scheme "Bearer".toList = true) :
    Carries (trim (scheme ++ ' ' :: token)) text ↔ trim token ≠ [] ∧ text = trim token := by
  have hspace := Text.isWhiteSpace_of_eqIgnoreAsciiCase (by decide) hscheme
  have hne : scheme ≠ [] := by
    rintro rfl
    exact absurd hscheme (by decide)
  obtain ⟨hbare, hfull⟩ := trim_scheme hspace hne token
  by_cases hnil : trim token = []
  · refine iff_of_false ?_ (fun h ↦ h.1 hnil)
    rintro ⟨scheme', rest, heq, -⟩
    rw [hbare hnil] at heq
    have hblank := hspace ' ' (heq ▸ by simp)
    exact absurd hblank (by decide)
  · obtain ⟨rest, hvalue, hrest⟩ := hfull hnil
    rw [hvalue, ← hrest, ← credential_eq_some,
      credential_eq_some.mpr ⟨scheme, rest, rfl, .inl ⟨hscheme, rfl⟩⟩]
    constructor
    · exact fun h ↦ ⟨hrest ▸ hnil, (Option.some.inj h).symm⟩
    · exact fun h ↦ congrArg some h.2.symm

/-- A password has no white space that could be lost. -/
theorem carries_basic (hbase64 : Crates.Base64Standard) {scheme user token : Text}
    (hscheme : eqIgnoreAsciiCase scheme "Basic".toList = true) (huser : ':' ∉ user) :
    Carries (trim (scheme ++ ' ' :: Crates.base64Encode (Text.utf8 (user ++ ':' :: token))))
      token := by
  have hspace := Text.isWhiteSpace_of_eqIgnoreAsciiCase (by decide) hscheme
  have hne : scheme ≠ [] := by
    rintro rfl
    exact absurd hscheme (by decide)
  let payload := Crates.base64Encode (Text.utf8 (user ++ ':' :: token))
  have hpayload : trim payload = payload :=
    Text.trim_eq_self (Text.trimmed_of_forall (hbase64.unspaced _))
  have hfilled : trim payload ≠ [] := by
    rw [hpayload, ← List.length_pos_iff, hbase64.length, Text.utf8_append, List.length_append,
      Text.utf8_cons, List.length_append, String.length_utf8EncodeChar]
    have := Char.utf8Size_pos ':'
    omega
  obtain ⟨rest, hvalue, hrest⟩ := (trim_scheme hspace hne payload).2 hfilled
  rw [hvalue]
  refine ⟨scheme, rest, rfl, .inr ⟨hscheme, user, huser, ?_⟩⟩
  rw [hrest, hpayload]
  exact hbase64.decode _

theorem accepts_of_carries {value token : Text} (htokens : cache.tokens = .new kept)
    (hline : '\n' ∉ value) (hcarries : Carries (trim value) token) (htoken : token ∈ kept) :
    Accepts cache value := by
  refine ⟨fun head request hparse hpresents ↦ ?_, Http.exists_presents hline⟩
  rw [admission_eq_admitted]
  refine ⟨_, token, hpresents.authorization hparse, hcarries, ?_⟩
  rw [htokens]
  exact List.mem_map_of_mem htoken

/-- A credential that `Bearer` may present is kept without the white space around it. -/
theorem trim_mem_of_accepts {token : Text} (htokens : cache.tokens = .new kept)
    (hcollision : Crates.CollisionFree inputs) (hkept : ∀ token ∈ kept, Text.utf8 token ∈ inputs)
    (htoken : Text.utf8 (trim token) ∈ inputs)
    (h : Accepts cache ("Bearer".toList ++ ' ' :: token)) : trim token ∈ kept := by
  obtain ⟨hall, head, request, hparse, hpresents⟩ := h
  obtain ⟨value, text, hvalue, hcarries, hdigest⟩ :=
    admission_eq_admitted.mp (hall head request hparse hpresents)
  rw [hpresents.authorization hparse] at hvalue
  obtain rfl := Option.some.inj hvalue
  obtain ⟨-, rfl⟩ := (carries_bearer (by decide)).mp hcarries
  rw [htokens] at hdigest
  exact (mem_digests_new hcollision hkept htoken).mp hdigest

omit [Crates] in
/-- What is kept is not empty, and only a flag can have white space around it. -/
theorem mem_credentials {pushToken : List Text} {pushTokenFile : Option Text} {token : Text}
    (h : token ∈ Boot.credentials pushToken pushTokenFile) :
    token ≠ [] ∧ (token ∈ pushToken ∨ trim token = token) := by
  obtain hflag | hfile := List.mem_append.mp h
  · obtain ⟨hmem, hne⟩ := List.mem_filter.mp hflag
    exact ⟨of_decide_eq_true hne, .inl hmem⟩
  · cases pushTokenFile with
    | none => exact absurd hfile List.not_mem_nil
    | some text =>
      obtain ⟨hmem, hne⟩ := List.mem_filter.mp hfile
      obtain ⟨line, -, rfl⟩ := List.mem_map.mp hmem
      exact ⟨of_decide_eq_true hne, .inr (Text.trim_eq_self (Text.trimmed_trim line))⟩

/-- Both sides mean the same credentials exactly if every flag in one line is empty or is kept
without the white space around it too. -/
theorem honours_iff {pushToken : List Text} {pushTokenFile : Option Text}
    (hbase64 : Crates.Base64Standard) (hcollision : Crates.CollisionFree inputs)
    (hinputs : ∀ token ∈ Boot.credentials pushToken pushTokenFile,
      Text.utf8 token ∈ inputs ∧ Text.utf8 (trim token) ∈ inputs)
    (htokens : cache.tokens = Boot.pushTokens pushToken pushTokenFile) :
    Honours cache inputs (Boot.credentials pushToken pushTokenFile)
      ↔ ∀ token ∈ pushToken, token ≠ [] → '\n' ∉ token →
        trim token ∈ Boot.credentials pushToken pushTokenFile := by
  have hkept := fun token htoken ↦ (hinputs token htoken).1
  constructor
  · intro h token hflag hne hline
    have hmem : token ∈ Boot.credentials pushToken pushTokenFile :=
      List.mem_append_left _ (List.mem_filter.mpr ⟨hflag, decide_eq_true hne⟩)
    exact trim_mem_of_accepts htokens hcollision hkept (hinputs token hmem).2
      (h.bearer token hmem hline _ (by decide))
  · intro hflags
    have hoff : ∀ {scheme name text : Text}, eqIgnoreAsciiCase scheme name = true →
        '\n' ∉ name.map Char.toLower → '\n' ∉ text → '\n' ∉ scheme ++ ' ' :: text := by
      intro scheme name text hname hlower htext hmem
      obtain hmem | hmem := List.mem_append.mp hmem
      · exact @Text.notMem_of_eqIgnoreAsciiCase _ _ '\n' hname hlower hmem
      · obtain hmem | hmem := List.mem_cons.mp hmem
        · exact absurd hmem (by decide)
        · exact htext hmem
    refine ⟨fun token htoken hline scheme hscheme ↦ ?_,
      fun token htoken hline scheme user hscheme huser ↦ ?_,
      fun head request presented hparse hpresented hmem hadmitted ↦ ?_⟩
    · -- whether a flag or a line of the file, it is kept without its white space
      obtain ⟨hne, hsource⟩ := mem_credentials htoken
      have htrim : trim token ∈ Boot.credentials pushToken pushTokenFile := by
        obtain hflag | htrim := hsource
        · exact hflags token hflag hne hline
        · exact htrim.symm ▸ htoken
      have hcarries := (carries_bearer hscheme).mpr ⟨(mem_credentials htrim).1, rfl⟩
      exact accepts_of_carries htokens (hoff hscheme (by decide) hline) hcarries htrim
    · refine accepts_of_carries htokens (hoff hscheme (by decide) fun hmem ↦ ?_)
        (carries_basic hbase64 hscheme huser) htoken
      exact (hbase64.plain _ _ hmem).2.2 rfl
    · obtain ⟨value, token, hvalue, hcarries, hdigest⟩ := admission_eq_admitted.mp hadmitted
      have hcredential := credential_eq_some.mpr hcarries
      rw [hvalue, Option.bind_some, hcredential] at hpresented
      obtain rfl := Option.some.inj hpresented
      rw [htokens] at hdigest
      refine ⟨value, Http.presents_of_authorization hparse hvalue, token,
        ⟨(mem_digests_new hcollision hkept hmem).mp hdigest, hcarries⟩, ?_⟩
      rintro other ⟨-, hother⟩
      exact Option.some.inj ((credential_eq_some.mpr hother).symm.trans hcredential)

end

section Examples

open Codecs
open Specimen (cache)

/-- Flags, of which one has white space in front and one is empty. -/
def flags : List Text := [[' ', 'a'], ['b'], []]

/-- A token file with the first of them on a line, and another token. -/
def tokenFile : Text := "  a \n\nc\r\n".toList

/-- A cache with tokens of both kinds. Its file has the flag without the white space around it. -/
theorem honours_flags : Boot.credentials flags (some tokenFile) = [[' ', 'a'], ['b'], ['a'], ['c']]
    ∧ ∃ inputs, Honours { cache with tokens := Boot.pushTokens flags (some tokenFile) } inputs
      (Boot.credentials flags (some tokenFile)) := by
  have hcredentials : Boot.credentials flags (some tokenFile) = [[' ', 'a'], ['b'], ['a'], ['c']] :=
    by decide +kernel
  let inputs : List Bytes := [[32, 97], [97], [98], [99]]
  have hcollision : Crates.CollisionFree {bytes | bytes ∈ inputs} := by
    have hinputs : ∀ a ∈ inputs, ∀ b ∈ inputs, Crates.sha256 a = Crates.sha256 b → a = b := by
      decide
    exact fun a ha b hb ↦ hinputs a ha b hb
  have hinputs : ∀ token ∈ Boot.credentials flags (some tokenFile),
      Text.utf8 token ∈ inputs ∧ Text.utf8 (trim token) ∈ inputs := by
    rw [hcredentials]
    decide
  refine ⟨hcredentials, _, (honours_iff base64Standard hcollision hinputs rfl).mpr ?_⟩
  rintro token hflag hne -
  rw [hcredentials]
  rcases List.mem_cons.mp hflag with rfl | hflag
  · decide
  rcases List.mem_cons.mp hflag with rfl | hflag
  · decide
  · exact absurd (List.mem_singleton.mp hflag) hne

/-- The environment list `a, b` is cut at its comma, and the space stays. -/
def listed : List Text := [['a'], [' ', 'b']]

/-- The second of two credentials of a list is not accepted as bearer text. -/
theorem not_honours_listed : ∃ inputs, Crates.CollisionFree inputs
    ∧ (∀ token ∈ Boot.credentials listed none,
      Text.utf8 token ∈ inputs ∧ Text.utf8 (trim token) ∈ inputs)
    ∧ ¬Honours { cache with tokens := Boot.pushTokens listed none } inputs
      (Boot.credentials listed none) := by
  let inputs : List Bytes := [[97], [32, 98], [98]]
  have hcollision : Crates.CollisionFree {bytes | bytes ∈ inputs} := by
    have hinputs : ∀ a ∈ inputs, ∀ b ∈ inputs, Crates.sha256 a = Crates.sha256 b → a = b := by
      decide
    exact fun a ha b hb ↦ hinputs a ha b hb
  have hcredentials : ∀ token ∈ Boot.credentials listed none,
      Text.utf8 token ∈ inputs ∧ Text.utf8 (trim token) ∈ inputs := by decide
  refine ⟨_, hcollision, hcredentials, fun h ↦ ?_⟩
  have hmem : [' ', 'b'] ∈ Boot.credentials listed none := by decide
  have haccepts := h.bearer [' ', 'b'] hmem (by decide) "Bearer".toList (by decide)
  have htrim :=
    trim_mem_of_accepts rfl hcollision (fun token htoken ↦ (hcredentials token htoken).1)
    (hcredentials _ hmem).2 haccepts
  exact absurd htrim (by decide)

end Examples

end Cache

end Bincache
