import Xtd.Logging.Endpoint

/-!
# The grammar of endpoints

What an endpoint is made of: one `http://` that may be absent, an authority and a path; and the authority of a host, which
may stand between brackets, and of the text of a port that may be absent.  A text has these parts in at most one way, and
`parse_endpoint` finds them.  It follows the grammar but for the text of the port, which it leaves to `std::stoi`.
-/

namespace Xtd

open Sequence

/-! ### The parts of an endpoint -/

/-- What follows one `http://`, if the text begins with it. -/
inductive WithoutHttp : List Byte → List Byte → Prop
  | removed (rest : List Byte) : WithoutHttp (httpPrefix ++ rest) rest
  | kept (text : List Byte) (h : ¬ httpPrefix <+: text) : WithoutHttp text text

/-- An authority, and a path that begins with the first `/` and is `/` if there is none. -/
inductive AuthorityAndPath : List Byte → List Byte → List Byte → Prop
  | alone (authority : List Byte) (h : 47 ∉ authority) : AuthorityAndPath authority authority [47]
  | path (authority rest : List Byte) (h : 47 ∉ authority) :
    AuthorityAndPath (authority ++ 47 :: rest) authority (47 :: rest)

/-- A host, whether it stands between brackets, and the text of a port behind `:`, if there is one.  The first `]` closes
the bracket, and without brackets the last `:` is the one in front of the port. -/
inductive AuthorityParts : List Byte → List Byte → Bool → Option (List Byte) → Prop
  | bracketed (host : List Byte) (h : 93 ∉ host) : AuthorityParts (91 :: (host ++ [93])) host true none
  | bracketedPort (host port : List Byte) (h : 93 ∉ host) :
    AuthorityParts (91 :: (host ++ 93 :: 58 :: port)) host true (some port)
  | named (host : List Byte) (hhost : host.head? ≠ some 91) (h : 58 ∉ host) : AuthorityParts host host false none
  | namedPort (host port : List Byte) (hhost : host.head? ≠ some 91) (h : 58 ∉ port) :
    AuthorityParts (host ++ 58 :: port) host false (some port)

inductive EndpointParts (text host : List Byte) (ipv6 : Bool) (port : Option (List Byte)) (path : List Byte) : Prop
  | intro {rest authority : List Byte} (hhttps : ¬ httpsPrefix <+: text) (hhttp : WithoutHttp text rest)
    (hpath : AuthorityAndPath rest authority path) (hauthority : AuthorityParts authority host ipv6 port)

variable {text rest rest' authority authority' host host' path path' : List Byte} {ipv6 ipv6' : Bool}
  {port port' : Option (List Byte)}

theorem WithoutHttp.unique (h : WithoutHttp text rest) (h' : WithoutHttp text rest') : rest = rest' := by
  cases h with
  | removed =>
    generalize htext : httpPrefix ++ rest = text at h'
    cases h' with
    | removed => exact List.append_cancel_left htext
    | kept _ hkept => exact absurd ⟨rest, htext⟩ hkept
  | kept _ hkept =>
    cases h' with
    | removed => exact absurd ⟨rest', rfl⟩ hkept
    | kept => rfl

theorem AuthorityAndPath.unique (h : AuthorityAndPath rest authority path)
    (h' : AuthorityAndPath rest authority' path') : authority = authority' ∧ path = path' := by
  cases h with
  | alone _ hslash =>
    cases h' with
    | alone => exact ⟨rfl, rfl⟩
    | path => exact absurd (List.mem_append_right _ List.mem_cons_self) hslash
  | path _ tail hslash =>
    generalize hrest : authority ++ 47 :: tail = rest at h'
    cases h' with
    | alone _ hslash' =>
      rw [← hrest] at hslash'
      exact absurd (List.mem_append_right _ List.mem_cons_self) hslash'
    | path _ tail' hslash' =>
      obtain ⟨rfl, rfl⟩ := cut_unique hslash hslash' hrest
      exact ⟨rfl, rfl⟩

/-- Whether the host stands between brackets is seen at the first byte. -/
theorem AuthorityParts.ipv6_eq (h : AuthorityParts authority host ipv6 port) :
    ipv6 = decide (authority.head? = some 91) := by
  cases h with
  | bracketed => rfl
  | bracketedPort => rfl
  | named _ hhost => rw [decide_eq_false hhost]
  | namedPort _ _ hhost =>
    cases host with
    | nil => rfl
    | cons b host => exact (decide_eq_false hhost).symm

theorem AuthorityParts.unique (h : AuthorityParts authority host ipv6 port)
    (h' : AuthorityParts authority host' ipv6' port') : host = host' ∧ ipv6 = ipv6' ∧ port = port' := by
  obtain rfl : ipv6 = ipv6' := by rw [h.ipv6_eq, h'.ipv6_eq]
  generalize hsame : authority = authority₂ at h'
  cases h with
  | bracketed _ hclosed =>
    cases h' with
    | bracketed _ hclosed' =>
      obtain ⟨rfl, -⟩ := cut_unique hclosed hclosed' (List.cons.inj hsame).2
      exact ⟨rfl, rfl, rfl⟩
    | bracketedPort _ _ hclosed' => cases (cut_unique hclosed hclosed' (List.cons.inj hsame).2).2
  | bracketedPort _ _ hclosed =>
    cases h' with
    | bracketed _ hclosed' => cases (cut_unique hclosed hclosed' (List.cons.inj hsame).2).2
    | bracketedPort _ _ hclosed' =>
      obtain ⟨rfl, htail⟩ := cut_unique hclosed hclosed' (List.cons.inj hsame).2
      cases htail
      exact ⟨rfl, rfl, rfl⟩
  | named _ _ hcolon =>
    cases h' with
    | named => exact ⟨hsame, rfl, rfl⟩
    | namedPort => exact absurd (hsame ▸ List.mem_append_right _ List.mem_cons_self) hcolon
  | namedPort _ _ _ hcolon =>
    cases h' with
    | named _ _ hcolon' => exact absurd (hsame ▸ List.mem_append_right _ List.mem_cons_self) hcolon'
    | namedPort _ _ _ hcolon' =>
      obtain ⟨rfl, rfl⟩ := lastCut_unique hcolon hcolon' hsame
      exact ⟨rfl, rfl, rfl⟩

/-- A text has the parts of an endpoint in one way. -/
theorem EndpointParts.unique (h : EndpointParts text host ipv6 port path)
    (h' : EndpointParts text host' ipv6' port' path') :
    host = host' ∧ ipv6 = ipv6' ∧ port = port' ∧ path = path' := by
  obtain ⟨-, hhttp, hpath, hauthority⟩ := h
  obtain ⟨-, hhttp', hpath', hauthority'⟩ := h'
  obtain rfl := hhttp.unique hhttp'
  obtain ⟨rfl, rfl⟩ := hpath.unique hpath'
  obtain ⟨rfl, rfl, rfl⟩ := hauthority.unique hauthority'
  exact ⟨rfl, rfl, rfl, rfl⟩

theorem exists_withoutHttp (text : List Byte) : ∃ rest, WithoutHttp text rest := by
  by_cases h : httpPrefix <+: text
  · obtain ⟨rest, rfl⟩ := h
    exact ⟨rest, .removed rest⟩
  · exact ⟨text, .kept text h⟩

theorem exists_authorityAndPath (rest : List Byte) : ∃ authority path, AuthorityAndPath rest authority path := by
  by_cases h : 47 ∈ rest
  · obtain ⟨authority, tail, rfl, hslash⟩ := List.eq_append_cons_of_mem h
    exact ⟨authority, _, .path authority tail hslash⟩
  · exact ⟨rest, _, .alone rest h⟩

/-! ### What the parts are read as -/

/-- The port of its text, with the default if there is none. -/
def portOf : Option (List Byte) → Except Exn Int
  | none => .ok 80
  | some text => parsePort text

def endpointOf (host path : List Byte) (ipv6 : Bool) (port : Option (List Byte)) : Except Exn Endpoint :=
  (portOf port).map fun port => { host, path, ipv6, port }

/-- What follows the bracket decides. -/
private theorem parseAuthority_bracketed (hclosed : 93 ∉ host) (tail path : List Byte) :
    parseAuthority path (91 :: (host ++ 93 :: tail)) =
      if tail = [] then .ok { host, path, ipv6 := true }
      else if tail.head? ≠ some 58 then .error (.invalidArgument "invalid endpoint")
      else endpointOf host path true (some tail.tail) := by
  have hmem : (93 : Byte) ∉ 91 :: host := by simpa using hclosed
  have hindex : (91 :: (host ++ 93 :: tail)).idxOf? 93 = some (host.length + 1) := by
    rw [← List.cons_append, idxOf?_cut hmem, List.length_cons]
  have hhost : ((91 :: (host ++ 93 :: tail)).drop 1).take (host.length + 1 - 1) = host := by simp
  have hat : (91 :: (host ++ 93 :: tail))[host.length + 1 + 1]? = tail.head? := by
    rw [List.getElem?_cons_succ, List.getElem?_append_right (by omega), List.head?_eq_getElem?]
    simp
  have hdrop : (91 :: (host ++ 93 :: tail)).drop (host.length + 1 + 2) = tail.tail := by simp
  unfold parseAuthority
  rw [if_pos List.head?_cons, hindex]
  dsimp only
  rw [hhost, hat, hdrop]
  cases tail with
  | nil => rw [if_neg (by simp), if_pos rfl]
  | cons b tail =>
    rw [if_pos (by simp), if_neg (List.cons_ne_nil _ _)]
    rfl

theorem parseAuthority_of_parts (h : AuthorityParts authority host ipv6 port) (path : List Byte) :
    parseAuthority path authority = endpointOf host path ipv6 port := by
  cases h with
  | bracketed _ hclosed =>
    rw [parseAuthority_bracketed hclosed, if_pos rfl]
    rfl
  | bracketedPort _ port hclosed =>
    rw [parseAuthority_bracketed hclosed, if_neg (List.cons_ne_nil _ _), if_neg (fun h => h List.head?_cons)]
    rfl
  | named _ hhost hcolon =>
    unfold parseAuthority
    rw [if_neg hhost, lastIdxOf?_eq_none hcolon]
    rfl
  | namedPort _ port hhost hcolon =>
    have hhead := (AuthorityParts.namedPort host port hhost hcolon).ipv6_eq
    have hdrop : (host ++ 58 :: port).drop (host.length + 1) = port := by simp
    unfold parseAuthority
    rw [if_neg (of_decide_eq_false hhead.symm), lastIdxOf?_cut hcolon]
    dsimp only
    rw [hdrop, List.take_left]
    rfl

theorem parseAuthority_cases (authority : List Byte) :
    (∃ host ipv6 port, AuthorityParts authority host ipv6 port) ∨
      ∀ path, ∃ what, parseAuthority path authority = .error (.invalidArgument what) := by
  by_cases hhead : authority.head? = some 91
  · obtain ⟨rest, rfl⟩ := List.head?_eq_some_iff.1 hhead
    by_cases hclosed : 93 ∈ rest
    · obtain ⟨host, tail, rfl, hfree⟩ := List.eq_append_cons_of_mem hclosed
      cases tail with
      | nil => exact .inl ⟨_, _, _, .bracketed host hfree⟩
      | cons b tail =>
        by_cases hb : b = 58
        · subst hb
          exact .inl ⟨_, _, _, .bracketedPort host tail hfree⟩
        · right
          intro path
          refine ⟨"invalid endpoint", ?_⟩
          rw [parseAuthority_bracketed hfree, if_neg (List.cons_ne_nil _ _), if_pos (by simpa using hb)]
    · right
      intro path
      have hnone : (91 :: rest).idxOf? 93 = none := List.idxOf?_eq_none_iff.2 (by simpa using hclosed)
      refine ⟨"invalid endpoint host", ?_⟩
      unfold parseAuthority
      rw [if_pos List.head?_cons, hnone]
  · left
    by_cases hcolon : 58 ∈ authority
    · obtain ⟨host, port, rfl, hfree⟩ := exists_lastCut hcolon
      refine ⟨host, false, some port, .namedPort host port ?_ hfree⟩
      cases host with
      | nil =>
        intro h
        cases h
      | cons b host => exact hhead
    · exact ⟨_, _, _, .named authority hhead hcolon⟩

/-- The last check of `parse_endpoint`. -/
def requireHost (parsed : Endpoint) : Except Exn Endpoint :=
  if parsed.host.isEmpty then .error (.invalidArgument "invalid endpoint host") else .ok parsed

private theorem parseEndpoint_eq (hhttps : ¬ httpsPrefix <+: text) (hhttp : WithoutHttp text rest)
    (hpath : AuthorityAndPath rest authority path) :
    parseEndpoint text = if authority.isEmpty then .error (.invalidArgument "invalid endpoint host")
      else (parseAuthority path authority).bind requireHost := by
  have hrest : (if httpPrefix.isPrefixOf text then text.drop httpPrefix.length else text) = rest := by
    cases hhttp with
    | removed => rw [if_pos (List.isPrefixOf_iff_prefix.2 ⟨rest, rfl⟩), List.drop_left]
    | kept _ hkept => rw [if_neg (fun h => hkept (List.isPrefixOf_iff_prefix.1 h))]
  unfold parseEndpoint
  rw [if_neg (fun h => hhttps (List.isPrefixOf_iff_prefix.1 h)), hrest]
  dsimp only
  cases hpath with
  | alone _ hslash =>
    rw [List.idxOf?_eq_none_iff.2 hslash]
    rfl
  | path _ tail hslash =>
    rw [idxOf?_cut hslash]
    simp only [List.take_left, List.drop_left]
    rfl

theorem parseEndpoint_of_parts (h : EndpointParts text host ipv6 port path) :
    parseEndpoint text = (endpointOf host path ipv6 port).bind requireHost := by
  obtain @⟨rest, authority, hhttps, hhttp, hpath, hauthority⟩ := h
  rw [parseEndpoint_eq hhttps hhttp hpath, parseAuthority_of_parts hauthority]
  cases authority with
  | nil =>
    -- an authority without bytes is a host without bytes
    have hnamed : AuthorityParts [] [] false none := .named [] (by simp) List.not_mem_nil
    obtain ⟨rfl, rfl, rfl⟩ := hauthority.unique hnamed
    rfl
  | cons b authority => rfl

theorem parseEndpoint_cases (text : List Byte) :
    (∃ host ipv6 port path, EndpointParts text host ipv6 port path) ∨
      ∃ what, parseEndpoint text = .error (.invalidArgument what) := by
  by_cases hhttps : httpsPrefix <+: text
  · right
    refine ⟨"https is not supported by this transport", ?_⟩
    unfold parseEndpoint
    rw [if_pos (List.isPrefixOf_iff_prefix.2 hhttps)]
  · obtain ⟨rest, hhttp⟩ := exists_withoutHttp text
    obtain ⟨authority, path, hpath⟩ := exists_authorityAndPath rest
    rcases parseAuthority_cases authority with ⟨host, ipv6, port, hauthority⟩ | hrefused
    · exact .inl ⟨host, ipv6, port, path, hhttps, hhttp, hpath, hauthority⟩
    · right
      obtain ⟨what, hrefused⟩ := hrefused path
      rw [parseEndpoint_eq hhttps hhttp hpath, hrefused]
      split
      · exact ⟨_, rfl⟩
      · exact ⟨what, rfl⟩

theorem parseEndpoint_eq_ok_iff (h : EndpointParts text host ipv6 port path) {e : Endpoint} :
    parseEndpoint text = .ok e ↔ host ≠ [] ∧ portOf port = .ok e.port ∧ e = ⟨host, path, ipv6, e.port⟩ := by
  rw [parseEndpoint_of_parts h, endpointOf]
  cases portOf port with
  | error what =>
    constructor
    · intro h
      cases h
    · rintro ⟨-, h, -⟩
      cases h
  | ok value =>
    show requireHost ⟨host, path, ipv6, value⟩ = .ok e ↔ _
    unfold requireHost
    cases host with
    | nil =>
      constructor
      · intro h
        cases h
      · rintro ⟨h, -⟩
        exact absurd rfl h
    | cons b host =>
      constructor
      · intro h
        cases h
        exact ⟨List.cons_ne_nil _ _, rfl, rfl⟩
      · rintro ⟨-, h, he⟩
        cases h
        rw [he]
        rfl

/-- What is refused is refused because of the port or of the host. -/
theorem parseEndpoint_eq_error (h : EndpointParts text host ipv6 port path) {e : Exn} (he : parseEndpoint text = .error e) :
    portOf port = .error e ∨ e = .invalidArgument "invalid endpoint host" := by
  rw [parseEndpoint_of_parts h, endpointOf] at he
  cases hport : portOf port with
  | error what =>
    rw [hport] at he
    cases he
    exact .inl rfl
  | ok value =>
    right
    rw [hport] at he
    replace he : requireHost ⟨host, path, ipv6, value⟩ = .error e := he
    unfold requireHost at he
    split at he
    · cases he
      rfl
    · cases he

/-! ### The grammar -/

/-- What is meant: a host that is not empty, and a port from 1 to 65535 in decimal digits, or 80. -/
inductive EndpointText (text : List Byte) : Endpoint → Prop
  | defaultPort {host path : List Byte} {ipv6 : Bool} (h : EndpointParts text host ipv6 none path)
    (hhost : host ≠ []) : EndpointText text ⟨host, path, ipv6, 80⟩
  | withPort {host path digits : List Byte} {ipv6 : Bool} {port : Int}
    (h : EndpointParts text host ipv6 (some digits) path) (hhost : host ≠ []) (hport : PortText digits port) :
    EndpointText text ⟨host, path, ipv6, port⟩

/-- `parse_endpoint` accepts the text if and only if it is meant, with what it means, and says of every other text that it
is an invalid argument. -/
def FollowsGrammar (text : List Byte) : Prop :=
  (∀ e, parseEndpoint text = .ok e ↔ EndpointText text e) ∧
    ((∀ e, ¬ EndpointText text e) → ∃ what, parseEndpoint text = .error (.invalidArgument what))

/-- The text of the port begins with a number that is not an `int`, or it is a port behind white space or a plus sign, and
then there is a host. -/
def OddPort (text : List Byte) : Prop :=
  ∃ host ipv6 port path, EndpointParts text host ipv6 (some port) path ∧
    (Overflows port ∨ (host ≠ [] ∧ ∃ front value, front ≠ [] ∧ PortBehind front port value))

theorem EndpointText.parse {e : Endpoint} (h : EndpointText text e) : parseEndpoint text = .ok e := by
  cases h with
  | defaultPort h hhost => exact (parseEndpoint_eq_ok_iff h).2 ⟨hhost, rfl, rfl⟩
  | withPort h hhost hport =>
    exact (parseEndpoint_eq_ok_iff h).2 ⟨hhost, parsePort_eq_ok_iff.2 ⟨[], portBehind_nil.2 hport⟩, rfl⟩

theorem OddPort.not_followsGrammar (h : OddPort text) : ¬ FollowsGrammar text := by
  obtain ⟨host, ipv6, port, path, hparts, hport⟩ := h
  rintro ⟨haccepts, hrejects⟩
  -- in both cases the text has no meaning, as its port is not made of the digits of one
  have hnone : (∀ value, ¬ PortText port value) → ∀ e, ¬ EndpointText text e := by
    intro hport e he
    cases he with
    | defaultPort h => cases (h.unique hparts).2.2.1
    | withPort h _ hdigits =>
      cases (h.unique hparts).2.2.1
      exact hport _ hdigits
  rcases hport with hover | ⟨hhost, front, value, hfront, hport⟩
  · have hthrows := parsePort_of_overflows hover
    have hmeans : ∀ value, ¬ PortText port value := by
      intro value hvalue
      have hread := parsePort_eq_ok_iff.2 ⟨[], portBehind_nil.2 hvalue⟩
      rw [hthrows] at hread
      cases hread
    obtain ⟨what, hwhat⟩ := hrejects (hnone hmeans)
    rw [parseEndpoint_of_parts hparts, endpointOf, portOf, hthrows] at hwhat
    cases hwhat
  · have hok : parseEndpoint text = .ok ⟨host, path, ipv6, value⟩ :=
      (parseEndpoint_eq_ok_iff hparts).2 ⟨hhost, parsePort_eq_ok_iff.2 ⟨front, hport⟩, rfl⟩
    exact hnone (fun value => hport.not_portText hfront) _ ((haccepts _).1 hok)

theorem followsGrammar_of_not_oddPort (h : ¬ OddPort text) : FollowsGrammar text := by
  rcases parseEndpoint_cases text with ⟨host, ipv6, port, path, hparts⟩ | ⟨what, hwhat⟩
  · have hmeans : ∀ e, parseEndpoint text = .ok e → EndpointText text e := by
      intro e he
      obtain ⟨hhost, hport, heq⟩ := (parseEndpoint_eq_ok_iff hparts).1 he
      rw [heq]
      cases port with
      | none =>
        rw [← Except.ok.inj hport]
        exact .defaultPort hparts hhost
      | some port =>
        obtain ⟨front, hfront⟩ := parsePort_eq_ok_iff.1 hport
        by_cases hnil : front = []
        · subst hnil
          exact .withPort hparts hhost (portBehind_nil.1 hfront)
        · exact absurd ⟨host, ipv6, port, path, hparts, .inr ⟨hhost, front, _, hnil, hfront⟩⟩ h
    refine ⟨fun e => ⟨hmeans e, EndpointText.parse⟩, ?_⟩
    intro hnone
    cases hparse : parseEndpoint text with
    | ok e => exact absurd (hmeans e hparse) (hnone e)
    | error e =>
      rcases parseEndpoint_eq_error hparts hparse with hport | rfl
      · cases port with
        | none => cases hport
        | some port =>
          have hover : ¬ Overflows port := fun hover => h ⟨host, ipv6, port, path, hparts, .inl hover⟩
          obtain ⟨what, rfl⟩ := parsePort_of_not_overflows hover hport
          exact ⟨what, rfl⟩
      · exact ⟨_, rfl⟩
  · refine ⟨?_, fun _ => ⟨what, hwhat⟩⟩
    intro e
    constructor
    · intro he
      rw [hwhat] at he
      cases he
    · exact EndpointText.parse

/-- `parse_endpoint` follows its grammar, up to what it leaves to `std::stoi`: the port of a host may stand behind white
space and a plus sign, and a number that is not an `int` makes it throw `std::out_of_range`. -/
theorem endpoint_grammar_iff (text : List Byte) : FollowsGrammar text ↔ ¬ OddPort text :=
  ⟨fun h hodd => hodd.not_followsGrammar h, followsGrammar_of_not_oddPort⟩

/-- A plus sign in front of the port is accepted, and a port with eleven digits is not an invalid argument. -/
theorem endpoint_grammar_fails_plusSign :
    parseEndpoint (ascii "h:+80") = .ok ⟨ascii "h", ascii "/", false, 80⟩ ∧ ¬ FollowsGrammar (ascii "h:+80") ∧
    parseEndpoint (ascii "h:99999999999") = .error (.outOfRange "stoi") ∧ ¬ FollowsGrammar (ascii "h:99999999999") := by
  have hparts : ∀ port : List Byte, 47 ∉ port → 58 ∉ port →
      EndpointParts (104 :: 58 :: port) [104] false (some port) [47] := by
    intro port hslash hcolon
    refine .intro ?_ (.kept _ ?_) (.alone _ (by simpa using hslash)) (.namedPort [104] port (by decide) hcolon)
    · intro h
      cases (List.cons_prefix_cons.1 (List.cons_prefix_cons.1 h).2).1
    · intro h
      cases (List.cons_prefix_cons.1 (List.cons_prefix_cons.1 h).2).1
  refine ⟨rfl, OddPort.not_followsGrammar ?_, rfl, OddPort.not_followsGrammar ?_⟩
  · refine ⟨_, _, _, _, hparts [43, 56, 48] (by decide) (by decide), .inr ⟨List.cons_ne_nil _ _, [43], 80, ?_⟩⟩
    exact ⟨List.cons_ne_nil _ _, [], [43], [56, 48], rfl, rfl, List.forall_mem_nil _, .inr rfl,
      ⟨List.all_eq_true.1 rfl, List.cons_ne_nil _ _, rfl, by decide, by decide⟩⟩
  · refine ⟨_, _, _, _, hparts [57, 57, 57, 57, 57, 57, 57, 57, 57, 57, 57] (by decide) (by decide), .inl ?_⟩
    exact ⟨[], [], [57, 57, 57, 57, 57, 57, 57, 57, 57, 57, 57], [], ⟨rfl,
      List.forall_mem_nil _, .inl rfl, List.all_eq_true.1 rfl, List.cons_ne_nil _ _, stops_nil⟩, by decide⟩

end Xtd
