import Tailfin.Proxy.Relay

/-!
# How the proxy is started

`Config::parse` and the checks of `Proxy::new` of `tailfin-proxy`, in the order in which its
`main` makes them, and what `main` reports of a start that failed. Arguments are read from the left,
a flag takes the word behind it whatever it is, and the first word that is neither ends the start.
-/

namespace Tailfin

/-- `Error`, without the failures of sockets. -/
inductive ProxyError where
  | invalidUpstream (msg : String)
  | config (msg : String)
  deriving DecidableEq, Repr

def ProxyError.display : ProxyError → String
  | .invalidUpstream msg => "invalid upstream: " ++ msg
  | .config msg => msg

/-- `USAGE`. -/
def usage : String :=
  "tailfin-proxy — HTTP relay\n\n" ++
  "  --listen ADDR     bind address (default 127.0.0.1:7171, or TAILFIN_LISTEN)\n" ++
  "  --upstream URL    upstream base URL (required, or TAILFIN_UPSTREAM)\n"

/-- What `main` writes to the standard error for an error of `run`, and its exit code. -/
def ProxyError.reported (e : ProxyError) : String × Nat :=
  if e = .config "help" then (usage, 0) else ("tailfin-proxy: " ++ e.display ++ "\n", 1)

/-- The parsers of addresses and of URIs, and the roots that the system trusts. -/
class StartLibrary where
  SocketAddr : Type
  parseAddr : String → Option SocketAddr
  parseUri : String → Option Uri
  /-- What `with_native_roots` fails with, if it does. -/
  rootsError : Option String

/-- The loop over the arguments. -/
def readArgs : List String → String → Option String → Except ProxyError (String × Option String)
  | [], listen, upstream => .ok (listen, upstream)
  | arg :: args, listen, upstream =>
    if arg = "--listen" then
      match args with
      | [] => .error (.config "--listen needs a value")
      | value :: args => readArgs args value upstream
    else if arg = "--upstream" then
      match args with
      | [] => .error (.config "--upstream needs a value")
      | value :: args => readArgs args listen (some value)
    else if arg = "-h" ∨ arg = "--help" then .error (.config "help")
    else .error (.config ("unknown argument: " ++ arg))

section Start

variable [StartLibrary]

structure Config where
  listen : StartLibrary.SocketAddr
  upstream : Uri

/-- Flags override env. -/
def Config.parse (args : List String) (listenEnv upstreamEnv : Option String) :
    Except ProxyError Config := do
  let (listen, upstream) ← readArgs args (listenEnv.getD "127.0.0.1:7171") upstreamEnv
  match upstream with
  | none => .error (.config "upstream required (--upstream or TAILFIN_UPSTREAM)")
  | some upstream =>
    match StartLibrary.parseAddr listen with
    | none => .error (.config ("invalid listen address: " ++ listen))
    | some addr =>
      match StartLibrary.parseUri upstream with
      | none => .error (.config ("invalid upstream URI: " ++ upstream))
      | some uri => .ok ⟨addr, uri⟩

/-- `Proxy::new`. -/
def Proxy.tryNew (upstream : Uri) : Except ProxyError Proxy :=
  if upstream.scheme ≠ some "http" ∧ upstream.scheme ≠ some "https" then
    .error (.invalidUpstream "scheme must be http or https")
  else if upstream.authority.isNone then .error (.invalidUpstream "missing host")
  else
    match StartLibrary.rootsError with
    | some e => .error (.config ("loading native TLS roots: " ++ e))
    | none => .ok (.new upstream)

/-- What `run` does before it binds its socket. -/
def launch (args : List String) (listenEnv upstreamEnv : Option String) :
    Except ProxyError (StartLibrary.SocketAddr × Proxy) := do
  let cfg ← Config.parse args listenEnv upstreamEnv
  let proxy ← Proxy.tryNew cfg.upstream
  return (cfg.listen, proxy)

end Start

/-! ## What is asked for -/

inductive StartFlag where
  | listen
  | upstream
  deriving DecidableEq, Repr

def StartFlag.text : StartFlag → String
  | .listen => "--listen"
  | .upstream => "--upstream"

/-- A flag with its value. -/
abbrev Setting := StartFlag × String

def settingWords (settings : List Setting) : List String :=
  settings.flatMap fun s => [s.1.text, s.2]

/-- The value that a flag was given last. -/
def lastGiven (flag : StartFlag) (settings : List Setting) : Option String :=
  ((settings.filter fun s => s.1 = flag).getLast?).map Prod.snd

theorem lastGiven_cons (flag : StartFlag) (s : Setting) (settings : List Setting) :
    lastGiven flag (s :: settings) =
      (lastGiven flag settings).or (if s.1 = flag then some s.2 else none) := by
  unfold lastGiven
  by_cases ours : s.1 = flag
  · rw [List.filter_cons_of_pos (by simpa using ours), if_pos ours]
    cases settings.filter fun s => s.1 = flag with
    | nil => rfl
    | cons t more => simp [List.getLast?_cons]
  · rw [List.filter_cons_of_neg (by simpa using ours), if_neg ours, Option.or_none]

/-- Settings are read over what is there. -/
theorem readArgs_settingWords (settings : List Setting) (rest : List String) (listen : String)
    (upstream : Option String) : readArgs (settingWords settings ++ rest) listen upstream =
      readArgs rest ((lastGiven .listen settings).getD listen)
        ((lastGiven .upstream settings).or upstream) := by
  induction settings generalizing listen upstream with
  | nil => rfl
  | cons s settings ih =>
    obtain ⟨flag, value⟩ := s
    rw [lastGiven_cons, lastGiven_cons]
    cases flag with
    | listen =>
      have first : readArgs (settingWords ((.listen, value) :: settings) ++ rest) listen upstream =
          readArgs (settingWords settings ++ rest) value upstream := by
        rfl
      rw [first, ih]
      cases lastGiven .listen settings <;> simp
    | upstream =>
      have first : readArgs (settingWords ((.upstream, value) :: settings) ++ rest) listen
          upstream = readArgs (settingWords settings ++ rest) listen (some value) := by
        rfl
      rw [first, ih]
      cases lastGiven .upstream settings <;> simp

/-- A word that is no flag. -/
def NoFlag (w : String) : Prop := ∀ flag : StartFlag, w ≠ flag.text

theorem readArgs_word {w : String} (other : NoFlag w) (more : List String) (listen : String)
    (upstream : Option String) : readArgs (w :: more) listen upstream =
      if w = "-h" ∨ w = "--help" then .error (.config "help")
      else .error (.config ("unknown argument: " ++ w)) := by
  have listens : w ≠ "--listen" := other .listen
  have upstreams : w ≠ "--upstream" := other .upstream
  unfold readArgs
  rw [if_neg listens, if_neg upstreams]

/-- What the settings leave. -/
inductive Leftover : List String → Prop
  | nothing : Leftover []
  | bare (flag : StartFlag) : Leftover [flag.text]
  | word (w : String) (more : List String) : NoFlag w → Leftover (w :: more)

/-- Every list of arguments is read as settings, up to a word that ends the start. -/
theorem exists_settings : ∀ args : List String,
    ∃ settings rest, args = settingWords settings ++ rest ∧ Leftover rest
  | [] => ⟨[], [], rfl, .nothing⟩
  | [w] => by
    by_cases known : ∃ flag : StartFlag, w = flag.text
    · obtain ⟨flag, rfl⟩ := known
      exact ⟨[], _, rfl, .bare flag⟩
    · exact ⟨[], _, rfl, .word w [] (not_exists.mp known)⟩
  | w :: value :: args => by
    by_cases known : ∃ flag : StartFlag, w = flag.text
    · obtain ⟨flag, rfl⟩ := known
      obtain ⟨settings, rest, split, left⟩ := exists_settings args
      refine ⟨(flag, value) :: settings, rest, ?_, left⟩
      rw [split]
      rfl
    · exact ⟨[], _, rfl, .word w _ (not_exists.mp known)⟩

/-- The address that is listened on, as it is written. -/
def listenText (settings : List Setting) (listenEnv : Option String) : String :=
  (lastGiven .listen settings).getD (listenEnv.getD "127.0.0.1:7171")

/-- The upstream, as it is written. -/
def upstreamText (settings : List Setting) (upstreamEnv : Option String) : Option String :=
  (lastGiven .upstream settings).or upstreamEnv

/-- The arguments come to a word that asks for the usage. -/
def AsksHelp (args : List String) : Prop :=
  ∃ settings w more, args = settingWords settings ++ w :: more ∧ (w = "-h" ∨ w = "--help")

def Uri.isHttp (uri : Uri) : Prop := uri.scheme = some "http" ∨ uri.scheme = some "https"

section Launch

variable [StartLibrary] (args : List String) (listenEnv upstreamEnv : Option String)

/-- The proxy starts: there are settings only, what they say last can be read, and the roots of TLS
can be loaded. -/
def Starts (addr : StartLibrary.SocketAddr) (proxy : Proxy) : Prop :=
  ∃ settings upstream uri, args = settingWords settings ∧
    StartLibrary.parseAddr (listenText settings listenEnv) = some addr ∧
    upstreamText settings upstreamEnv = some upstream ∧
    StartLibrary.parseUri upstream = some uri ∧ uri.isHttp ∧ uri.authority.isSome ∧
    StartLibrary.rootsError = none ∧ proxy = .new uri

/-- Why it does not start. What comes first is told. -/
inductive Refuses : ProxyError → Prop
  | valueless (settings : List Setting) (flag : StartFlag) :
      args = settingWords settings ++ [flag.text] →
      Refuses (.config (flag.text ++ " needs a value"))
  | help (settings : List Setting) (w : String) (more : List String) :
      args = settingWords settings ++ w :: more → w = "-h" ∨ w = "--help" →
      Refuses (.config "help")
  | unknown (settings : List Setting) (w : String) (more : List String) :
      args = settingWords settings ++ w :: more → NoFlag w → ¬ (w = "-h" ∨ w = "--help") →
      Refuses (.config ("unknown argument: " ++ w))
  | noUpstream (settings : List Setting) : args = settingWords settings →
      upstreamText settings upstreamEnv = none →
      Refuses (.config "upstream required (--upstream or TAILFIN_UPSTREAM)")
  | badListen (settings : List Setting) : args = settingWords settings →
      (upstreamText settings upstreamEnv).isSome →
      StartLibrary.parseAddr (listenText settings listenEnv) = none →
      Refuses (.config ("invalid listen address: " ++ listenText settings listenEnv))
  | badUpstream (settings : List Setting) (upstream : String) : args = settingWords settings →
      upstreamText settings upstreamEnv = some upstream →
      (StartLibrary.parseAddr (listenText settings listenEnv)).isSome →
      StartLibrary.parseUri upstream = none →
      Refuses (.config ("invalid upstream URI: " ++ upstream))
  | badScheme (settings : List Setting) (upstream : String) (uri : Uri) :
      args = settingWords settings → upstreamText settings upstreamEnv = some upstream →
      (StartLibrary.parseAddr (listenText settings listenEnv)).isSome →
      StartLibrary.parseUri upstream = some uri → ¬ uri.isHttp →
      Refuses (.invalidUpstream "scheme must be http or https")
  | noHost (settings : List Setting) (upstream : String) (uri : Uri) :
      args = settingWords settings → upstreamText settings upstreamEnv = some upstream →
      (StartLibrary.parseAddr (listenText settings listenEnv)).isSome →
      StartLibrary.parseUri upstream = some uri → uri.isHttp → uri.authority = none →
      Refuses (.invalidUpstream "missing host")
  | noRoots (settings : List Setting) (upstream : String) (uri : Uri) (e : String) :
      args = settingWords settings → upstreamText settings upstreamEnv = some upstream →
      (StartLibrary.parseAddr (listenText settings listenEnv)).isSome →
      StartLibrary.parseUri upstream = some uri → uri.isHttp → uri.authority.isSome →
      StartLibrary.rootsError = some e →
      Refuses (.config ("loading native TLS roots: " ++ e))

variable {args listenEnv upstreamEnv}

theorem parse_settingWords (settings : List Setting) :
    Config.parse (settingWords settings) listenEnv upstreamEnv =
      match upstreamText settings upstreamEnv with
      | none => .error (.config "upstream required (--upstream or TAILFIN_UPSTREAM)")
      | some upstream =>
        match StartLibrary.parseAddr (listenText settings listenEnv) with
        | none => .error (.config ("invalid listen address: " ++ listenText settings listenEnv))
        | some addr =>
          match StartLibrary.parseUri upstream with
          | none => .error (.config ("invalid upstream URI: " ++ upstream))
          | some uri => .ok ⟨addr, uri⟩ := by
  have read := readArgs_settingWords settings [] (listenEnv.getD "127.0.0.1:7171") upstreamEnv
  rw [List.append_nil] at read
  rw [Config.parse, read]
  rfl

theorem launch_error {e : ProxyError}
    (refused : Config.parse args listenEnv upstreamEnv = .error e) :
    launch args listenEnv upstreamEnv = .error e := by
  rw [launch, refused]
  rfl

/-- The checks of `Proxy::new`, behind a parse that succeeded. -/
theorem launch_of_parse {addr : StartLibrary.SocketAddr} {uri : Uri}
    (parsed : Config.parse args listenEnv upstreamEnv = .ok ⟨addr, uri⟩) :
    launch args listenEnv upstreamEnv = (Proxy.tryNew uri).map fun proxy => (addr, proxy) := by
  rw [launch, parsed]
  cases made : Proxy.tryNew uri <;> simp [made, bind, Except.bind, pure, Except.pure, Except.map]

theorem parse_read {settings : List Setting} {upstream : String} {addr : StartLibrary.SocketAddr}
    {uri : Uri} (given : upstreamText settings upstreamEnv = some upstream)
    (listens : StartLibrary.parseAddr (listenText settings listenEnv) = some addr)
    (read : StartLibrary.parseUri upstream = some uri) :
    Config.parse (settingWords settings) listenEnv upstreamEnv = .ok ⟨addr, uri⟩ := by
  rw [parse_settingWords, given]
  simp only [listens, read]

/-- Behind the checks of the upstream only the roots are left. -/
theorem tryNew_of_checked {uri : Uri} (http : uri.isHttp) (host : uri.authority.isSome) :
    Proxy.tryNew uri = match StartLibrary.rootsError with
      | some e => .error (.config ("loading native TLS roots: " ++ e))
      | none => .ok (.new uri) := by
  rw [Proxy.tryNew, if_neg fun other => not_or.mpr other http, if_neg]
  rw [Option.isNone_iff_eq_none]
  exact Option.isSome_iff_ne_none.mp host

theorem launch_starts {addr : StartLibrary.SocketAddr} {proxy : Proxy}
    (h : Starts args listenEnv upstreamEnv addr proxy) :
    launch args listenEnv upstreamEnv = .ok (addr, proxy) := by
  obtain ⟨settings, upstream, uri, rfl, listens, given, read, http, host, roots, rfl⟩ := h
  rw [launch_of_parse (parse_read given listens read), tryNew_of_checked http host, roots]
  rfl

theorem launch_refuses {e : ProxyError} (h : Refuses args listenEnv upstreamEnv e) :
    launch args listenEnv upstreamEnv = .error e := by
  -- The arguments are read to a word that ends the start.
  have ends {settings : List Setting} {rest : List String} (split : args = settingWords settings ++ rest)
      {e : ProxyError} (last : ∀ listen upstream, readArgs rest listen upstream = .error e) :
      launch args listenEnv upstreamEnv = .error e := by
    apply launch_error
    rw [Config.parse, split, readArgs_settingWords, last]
    rfl
  cases h with
  | valueless settings flag split =>
    apply ends split
    intro listen upstream
    cases flag <;> rfl
  | help settings w more split asked =>
    apply ends split
    intro listen upstream
    have other : NoFlag w := by
      rcases asked with rfl | rfl <;> intro flag <;> cases flag <;> decide
    rw [readArgs_word other, if_pos asked]
  | unknown settings w more split other asked =>
    apply ends split
    intro listen upstream
    rw [readArgs_word other, if_neg asked]
  | noUpstream settings split absent =>
    apply launch_error
    rw [split, parse_settingWords, absent]
  | badListen settings split given bad =>
    obtain ⟨upstream, given⟩ := Option.isSome_iff_exists.mp given
    apply launch_error
    rw [split, parse_settingWords, given]
    simp only [bad]
  | badUpstream settings upstream split given listens bad =>
    obtain ⟨addr, listens⟩ := Option.isSome_iff_exists.mp listens
    apply launch_error
    rw [split, parse_settingWords, given]
    simp only [listens, bad]
  | badScheme settings upstream uri split given listens read other =>
    obtain ⟨addr, listens⟩ := Option.isSome_iff_exists.mp listens
    rw [split, launch_of_parse (parse_read given listens read), Proxy.tryNew,
      if_pos (not_or.mp other)]
    rfl
  | noHost settings upstream uri split given listens read http bare =>
    obtain ⟨addr, listens⟩ := Option.isSome_iff_exists.mp listens
    rw [split, launch_of_parse (parse_read given listens read), Proxy.tryNew,
      if_neg fun other => not_or.mpr other http, if_pos (by rw [bare]; rfl)]
    rfl
  | noRoots settings upstream uri e split given listens read http host failed =>
    obtain ⟨addr, listens⟩ := Option.isSome_iff_exists.mp listens
    rw [split, launch_of_parse (parse_read given listens read), tryNew_of_checked http host, failed]
    rfl

/-- Every start is one or the other. -/
theorem starts_or_refuses (args : List String) (listenEnv upstreamEnv : Option String) :
    (∃ addr proxy, Starts args listenEnv upstreamEnv addr proxy) ∨
      ∃ e, Refuses args listenEnv upstreamEnv e := by
  obtain ⟨settings, rest, split, left⟩ := exists_settings args
  cases left with
  | bare flag => exact .inr ⟨_, .valueless settings flag split⟩
  | word w more other =>
    by_cases asked : w = "-h" ∨ w = "--help"
    · exact .inr ⟨_, .help settings w more split asked⟩
    · exact .inr ⟨_, .unknown settings w more split other asked⟩
  | nothing =>
    rw [List.append_nil] at split
    cases given : upstreamText settings upstreamEnv with
    | none => exact .inr ⟨_, .noUpstream settings split given⟩
    | some upstream =>
      cases listens : StartLibrary.parseAddr (listenText settings listenEnv) with
      | none => exact .inr ⟨_, .badListen settings split (by rw [given]; rfl) listens⟩
      | some addr =>
        have some_ : (StartLibrary.parseAddr (listenText settings listenEnv)).isSome := by
          rw [listens]
          rfl
        cases read : StartLibrary.parseUri upstream with
        | none => exact .inr ⟨_, .badUpstream settings upstream split given some_ read⟩
        | some uri =>
          by_cases http : uri.isHttp
          · cases host : uri.authority with
            | none => exact .inr ⟨_, .noHost settings upstream uri split given some_ read http host⟩
            | some auth =>
              have named : uri.authority.isSome := by
                rw [host]
                rfl
              cases roots : StartLibrary.rootsError with
              | none =>
                exact .inl ⟨addr, _, settings, upstream, uri, split, listens, given, read, http,
                  named, roots, rfl⟩
              | some e =>
                exact .inr ⟨_, .noRoots settings upstream uri e split given some_ read http named
                  roots⟩
          · exact .inr ⟨_, .badScheme settings upstream uri split given some_ read http⟩

/-- The usage is printed to those who ask, and to nobody else. -/
theorem refuses_help_iff {args : List String} {listenEnv upstreamEnv : Option String} :
    Refuses args listenEnv upstreamEnv (.config "help") ↔ AsksHelp args := by
  constructor
  · intro h
    have longer {text shown : String} (starts : text.toList.head? ≠ some 'h')
        (same : "help" = text ++ shown) (some_ : text ≠ "") : False := by
      apply starts
      have chars := congrArg (fun s : String => s.toList.head?) same
      rw [String.toList_append, List.head?_append_of_ne_nil] at chars
      · exact chars.symm
      · exact fun empty => some_ (String.toList_eq_nil_iff.mp empty)
    generalize message : ProxyError.config "help" = e at h
    cases h with
    | help settings w more split asked => exact ⟨settings, w, more, split, asked⟩
    | valueless settings flag =>
      cases flag <;> exact absurd (ProxyError.config.inj message) (by decide)
    | unknown => exact (longer (by decide) (ProxyError.config.inj message) (by decide)).elim
    | badListen => exact (longer (by decide) (ProxyError.config.inj message) (by decide)).elim
    | badUpstream => exact (longer (by decide) (ProxyError.config.inj message) (by decide)).elim
    | noRoots => exact (longer (by decide) (ProxyError.config.inj message) (by decide)).elim
    | noUpstream => exact absurd (ProxyError.config.inj message) (by decide)
    | badScheme | noHost => cases message
  · rintro ⟨settings, w, more, split, asked⟩
    exact .help settings w more split asked

/-- How the proxy is started, or why not. -/
structure LaunchesExactly (args : List String) (listenEnv upstreamEnv : Option String) : Prop where
  started : ∀ addr proxy, launch args listenEnv upstreamEnv = .ok (addr, proxy) ↔
    Starts args listenEnv upstreamEnv addr proxy
  refused : ∀ e, launch args listenEnv upstreamEnv = .error e ↔
    Refuses args listenEnv upstreamEnv e
  helped : launch args listenEnv upstreamEnv = .error (.config "help") ↔ AsksHelp args
  /-- The usage and no failure for those who ask, the error and a failure for the others. -/
  reported : ∀ e, launch args listenEnv upstreamEnv = .error e →
    (AsksHelp args → e.reported = (usage, 0)) ∧
      (¬ AsksHelp args → e.reported = ("tailfin-proxy: " ++ e.display ++ "\n", 1))

theorem launchesExactly (args : List String) (listenEnv upstreamEnv : Option String) :
    LaunchesExactly args listenEnv upstreamEnv := by
  have refused : ∀ e, launch args listenEnv upstreamEnv = .error e ↔
      Refuses args listenEnv upstreamEnv e := by
    refine fun e => ⟨fun refused => ?_, launch_refuses⟩
    rcases starts_or_refuses args listenEnv upstreamEnv with ⟨addr, proxy, starts⟩ | ⟨e', refuses⟩
    · cases refused.symm.trans (launch_starts starts)
    · obtain rfl := Except.error.inj (refused.symm.trans (launch_refuses refuses))
      exact refuses
  have helped : launch args listenEnv upstreamEnv = .error (.config "help") ↔ AsksHelp args :=
    (refused _).trans refuses_help_iff
  refine ⟨fun addr proxy => ⟨fun started => ?_, launch_starts⟩, refused, helped, fun e failed => ?_⟩
  · rcases starts_or_refuses args listenEnv upstreamEnv with
      ⟨addr', proxy', starts⟩ | ⟨e, refuses⟩
    · obtain ⟨rfl, rfl⟩ := Prod.mk.inj (Except.ok.inj (started.symm.trans (launch_starts starts)))
      exact starts
    · cases started.symm.trans (launch_refuses refuses)
  · refine ⟨fun asked => ?_, fun other => if_neg ?_⟩
    · obtain rfl := Except.error.inj (failed.symm.trans (helped.mpr asked))
      exact if_pos rfl
    · rintro rfl
      exact other (helped.mp failed)

end Launch

end Tailfin
