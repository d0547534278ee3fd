import Otedama.Framework.UnitWords

/-! # The systemd service

Installing the service writes a unit file whose `ExecStart=` line has the
path of the binary and the arguments of `otedama run`. A value with a
space, a tab, a double quote or a control character is written by
`strconv.Quote`; any other value stands as it is.

- No value makes a line of its own: apart from the values of `ExecStart=`
  and `ReadWritePaths=` the unit is fixed (`Manager.splitLines_systemdUnit`).
- systemd also gives a meaning to the single quote and to the backslash.
  The command line is the intended one when no value that stands as it is
  has one of them (`Manager.runs_of_safe`), and only then if unknown
  escapes are refused (`Manager.safe_of_runs`).

The printable runes above U+00FF (`wide`) and the data directory of the
operating system are parameters. -/

namespace Otedama.Daemon

open GoString GoQuote UnitWords List

/-! ## The command line -/

structure ServiceFlags where
  bitcoinAddress : GoString
  logLevel : GoString
  logFormat : GoString
  language : GoString
  deriving DecidableEq

structure Manager where
  binaryPath : GoString
  configPath : GoString
  dataDir : GoString
  serviceFlags : ServiceFlags
  deriving DecidableEq

/-- The condition in `quoteToken`. -/
def needsQuotes (s : GoString) : Bool :=
  s.any [space, 9, doubleQuote].contains || (runes s).any isControl

def quoteToken (wide : Char → Bool) (s : GoString) : GoString :=
  if needsQuotes s then quote wide s else s

/-- An option with its value, if there is one. -/
def option (name : String) (v : GoString) : List GoString :=
  if v = [] then [] else [text name.toList, v]

namespace Manager

def serviceArgv (m : Manager) : List GoString :=
  [text "run".toList] ++
    option "--config" m.configPath ++
    option "--data-dir" m.dataDir ++
    option "--bitcoin-address" m.serviceFlags.bitcoinAddress ++
    option "--log-level" m.serviceFlags.logLevel ++
    option "--log-format" m.serviceFlags.logFormat ++
    option "--language" m.serviceFlags.language

def serviceArgs (wide : Char → Bool) (m : Manager) : GoString :=
  [space].intercalate (m.serviceArgv.map (quoteToken wide))

end Manager

/-! ## The unit file -/

def execStartKey : GoString := text "ExecStart=".toList

def readWritePathsKey : GoString := text "ReadWritePaths=".toList

/-- The lines in front of `ExecStart=`. The dash is U+2014. -/
def unitHead : List GoString :=
  [text "[Unit]".toList,
    encodeRunes "Description=Otedama — non-custodial compute arbitration".toList,
    text "After=network-online.target".toList,
    text "Wants=network-online.target".toList,
    [],
    text "[Service]".toList,
    text "Type=simple".toList]

def unitService : List GoString :=
  [text "Restart=on-failure".toList,
    text "RestartSec=10s".toList,
    text "StandardOutput=journal".toList,
    text "StandardError=journal".toList,
    text "SyslogIdentifier=otedama".toList,
    [],
    text "# Security hardening".toList,
    text "NoNewPrivileges=true".toList,
    text "ProtectHome=read-only".toList,
    text "PrivateTmp=true".toList]

/-- The lines behind `ReadWritePaths=`. -/
def unitInstall : List GoString :=
  [[], text "[Install]".toList, text "WantedBy=default.target".toList]

def unlines (lines : List GoString) : GoString := lines.flatMap fun line => line ++ [newline]

namespace Manager

section

variable (wide : Char → Bool) (defaultDataDir : GoString) (m : Manager)

def effectiveDataDir : GoString := if m.dataDir = [] then defaultDataDir else m.dataDir

def readWritePaths : GoString :=
  if m.effectiveDataDir defaultDataDir = [] then []
  else readWritePathsKey ++ quoteToken wide (m.effectiveDataDir defaultDataDir) ++ [newline]

def systemdUnit : GoString :=
  unlines unitHead ++
    (execStartKey ++ quoteToken wide m.binaryPath ++ space :: m.serviceArgs wide ++ [newline]) ++
    unlines unitService ++ m.readWritePaths wide defaultDataDir ++ unlines unitInstall

end

end Manager

/-! ## Lines -/

section

variable {wide : Char → Bool}

theorem newline_notMem_of_bare {s : GoString} (h : ¬ needsQuotes s) : newline ∉ s := by
  intro hmem
  refine h ?_
  have hrune : Char.ofNat newline.toNat ∈ runes s := mem_runes_of_ascii hmem (by decide)
  rw [needsQuotes, Bool.or_eq_true]
  exact .inr (any_eq_true.mpr ⟨_, hrune, by decide⟩)

theorem newline_notMem_quoteToken (s : GoString) : newline ∉ quoteToken wide s := by
  unfold quoteToken
  by_cases h : needsQuotes s
  · rw [if_pos h]
    exact newline_notMem_quote s
  · rw [if_neg h]
    exact newline_notMem_of_bare h

/-- The value of the `ExecStart=` line: the texts of the words, joined by spaces. -/
def Manager.execStart (wide : Char → Bool) (m : Manager) : GoString :=
  [space].intercalate ((m.binaryPath :: m.serviceArgv).map (quoteToken wide))

theorem Manager.execStart_eq (m : Manager) :
    m.execStart wide = quoteToken wide m.binaryPath ++ space :: m.serviceArgs wide :=
  intercalate_cons (by simp [serviceArgv])

/-- The `ReadWritePaths=` line, if there is one. -/
def Manager.readWriteLines (wide : Char → Bool) (defaultDataDir : GoString) (m : Manager) :
    List GoString :=
  if m.effectiveDataDir defaultDataDir = [] then []
  else [readWritePathsKey ++ quoteToken wide (m.effectiveDataDir defaultDataDir)]

def Manager.unitLines (wide : Char → Bool) (defaultDataDir : GoString) (m : Manager) :
    List GoString :=
  unitHead ++ [execStartKey ++ m.execStart wide] ++ unitService ++
    m.readWriteLines wide defaultDataDir ++ unitInstall

section

variable (defaultDataDir : GoString) (m : Manager)

theorem Manager.unlines_readWriteLines :
    unlines (m.readWriteLines wide defaultDataDir) = m.readWritePaths wide defaultDataDir := by
  unfold readWriteLines readWritePaths
  by_cases h : m.effectiveDataDir defaultDataDir = []
  · rw [if_pos h, if_pos h]
    rfl
  · rw [if_neg h, if_neg h]
    simp [unlines]

theorem Manager.systemdUnit_eq :
    m.systemdUnit wide defaultDataDir = unlines (m.unitLines wide defaultDataDir) := by
  unfold systemdUnit unitLines
  rw [← unlines_readWriteLines]
  simp [unlines, execStart_eq]

theorem Manager.splitLines_systemdUnit :
    splitLines (m.systemdUnit wide defaultDataDir) = (m.unitLines wide defaultDataDir, []) := by
  have hfixed : ∀ line ∈ unitHead ++ unitService ++ unitInstall, newline ∉ line := by
    decide +kernel
  have hexec : newline ∉ execStartKey ++ m.execStart wide := by
    rw [mem_append, not_or]
    refine ⟨by decide, notMem_intercalate (by decide) fun t ht => ?_⟩
    obtain ⟨v, -, rfl⟩ := mem_map.mp ht
    exact newline_notMem_quoteToken v
  have hpaths : ∀ line ∈ m.readWriteLines wide defaultDataDir, newline ∉ line := by
    intro line hline
    unfold readWriteLines at hline
    split_ifs at hline
    · exact absurd hline not_mem_nil
    · rw [mem_singleton.mp hline, mem_append, not_or]
      exact ⟨by decide, newline_notMem_quoteToken _⟩
  rw [systemdUnit_eq]
  refine splitLines_flatMap fun line hline => ?_
  simp only [unitLines, mem_append, mem_singleton] at hline
  rcases hline with (((hline | rfl) | hline) | hline) | hline
  · exact hfixed line (by simp [hline])
  · exact hexec
  · exact hfixed line (by simp [hline])
  · exact hpaths line hline
  · exact hfixed line (by simp [hline])

end

end

/-! ## The words systemd reads -/

/-- What stands behind the key of a line. -/
def valueOf (key line : GoString) : Option GoString :=
  if key.isPrefixOf line then some (line.drop key.length) else none

/-- The values of the `ExecStart=` lines of a unit. -/
def execStarts (unit : GoString) : List GoString :=
  (splitLines unit).1.filterMap (valueOf execStartKey)

theorem execStarts_systemdUnit (wide : Char → Bool) (defaultDataDir : GoString) (m : Manager) :
    execStarts (m.systemdUnit wide defaultDataDir) = [m.execStart wide] := by
  have hexec : valueOf execStartKey (execStartKey ++ m.execStart wide) =
      some (m.execStart wide) := by
    have hprefix : execStartKey.isPrefixOf (execStartKey ++ m.execStart wide) :=
      isPrefixOf_iff_prefix.mpr (prefix_append _ _)
    rw [valueOf, if_pos hprefix, drop_left]
  have hhead : unitHead.filterMap (valueOf execStartKey) = [] := by decide +kernel
  have hservice : unitService.filterMap (valueOf execStartKey) = [] := by decide +kernel
  have hinstall : unitInstall.filterMap (valueOf execStartKey) = [] := by decide +kernel
  have hpaths : (m.readWriteLines wide defaultDataDir).filterMap (valueOf execStartKey) = [] := by
    unfold Manager.readWriteLines
    split_ifs
    · rfl
    · -- The two keys differ in their first byte.
      rfl
  rw [execStarts, Manager.splitLines_systemdUnit]
  simp only [Manager.unitLines, filterMap_append, hhead, hservice, hinstall, hpaths,
    filterMap_cons_some hexec, filterMap_nil]
  rfl

/-- No value that stands as it is has a single quote or a backslash. -/
def Manager.Safe (m : Manager) : Prop :=
  ∀ v ∈ m.binaryPath :: m.serviceArgv,
    ¬ needsQuotes v → singleQuote ∉ v ∧ backslash ∉ v

instance decidableSafe (m : Manager) : Decidable m.Safe :=
  inferInstanceAs (Decidable (∀ v ∈ m.binaryPath :: m.serviceArgv,
    ¬ needsQuotes v → singleQuote ∉ v ∧ backslash ∉ v))

/-- systemd reads one command line from the unit, which is the intended one. -/
def Manager.Runs (wide : Char → Bool) (defaultDataDir : GoString) (keep : Bool) (m : Manager) :
    Prop :=
  (execStarts (m.systemdUnit wide defaultDataDir)).map (words keep) =
    [some (m.binaryPath :: m.serviceArgv)]

theorem Manager.runs_iff_words (wide : Char → Bool) (defaultDataDir : GoString) (keep : Bool)
    (m : Manager) : m.Runs wide defaultDataDir keep ↔
      words keep (m.execStart wide) = some (m.binaryPath :: m.serviceArgv) := by
  rw [Runs, execStarts_systemdUnit]
  simp

/-- Every blank makes `quoteToken` write quotes, some of them as control characters. -/
theorem unquoted_of_bare {v : GoString} (h : ¬ needsQuotes v) : Unquoted v := by
  rw [needsQuotes, Bool.or_eq_true, not_or] at h
  obtain ⟨hany, hcontrol⟩ := h
  intro b hb
  have hnot : ¬ [space, 9, doubleQuote].contains b := fun hmem =>
    hany (any_eq_true.mpr ⟨b, hb, hmem⟩)
  have hline : b ≠ 10 ∧ b ≠ 13 := by
    refine ⟨?_, ?_⟩ <;>
      exact fun heq => hcontrol (any_eq_true.mpr
        ⟨_, mem_runes_of_ascii hb (by rw [heq]; decide), by rw [heq]; decide⟩)
  simp only [contains_cons, contains_nil, Bool.or_false, Bool.or_eq_true, beq_iff_eq,
    not_or] at hnot
  refine ⟨?_, hnot.2.2⟩
  simp [isBlank, hnot.1, hnot.2.1, hline.1, hline.2]

theorem readsAs_quoteToken {keep : Bool} {wide : Char → Bool} {v : GoString} (hne : v ≠ [])
    (h : ¬ needsQuotes v → singleQuote ∉ v ∧ backslash ∉ v) :
    ReadsAs keep (quoteToken wide v) v := by
  unfold quoteToken
  by_cases hq : needsQuotes v
  · rw [if_pos hq]
    exact readsAs_quote v
  · rw [if_neg hq]
    obtain ⟨hsingle, hback⟩ := h hq
    exact readsAs_unquoted hne (unquoted_of_bare hq) hsingle hback

theorem Manager.ne_nil_of_mem {m : Manager} (hbinary : m.binaryPath ≠ []) :
    ∀ v ∈ m.binaryPath :: m.serviceArgv, v ≠ [] := by
  have hoption : ∀ (name : String) (v : GoString), text name.toList ≠ [] →
      ∀ x ∈ option name v, x ≠ [] := by
    intro name v hname x hx
    unfold option at hx
    split_ifs at hx with hv
    · exact absurd hx not_mem_nil
    · rcases mem_cons.mp hx with rfl | hx
      · exact hname
      · rw [mem_singleton.mp hx]
        exact hv
  intro v hv
  simp only [serviceArgv, mem_cons, mem_append, not_mem_nil, or_false] at hv
  rcases hv with rfl | ((((((rfl | h) | h) | h) | h) | h) | h)
  · exact hbinary
  · decide
  all_goals exact hoption _ _ (by decide) v h

/-- The words with their texts. -/
def Manager.tokens (wide : Char → Bool) (m : Manager) : List (GoString × GoString) :=
  (m.binaryPath :: m.serviceArgv).map fun v => (quoteToken wide v, v)

theorem Manager.execStart_tokens (wide : Char → Bool) (m : Manager) :
    m.execStart wide = [space].intercalate ((m.tokens wide).map Prod.fst) := by
  rw [execStart, tokens, map_map]
  rfl

theorem Manager.tokens_snd (wide : Char → Bool) (m : Manager) :
    (m.tokens wide).map Prod.snd = m.binaryPath :: m.serviceArgv := by
  rw [tokens, map_map]
  exact map_id _

theorem Manager.runs_of_safe {wide : Char → Bool} {defaultDataDir : GoString} {keep : Bool}
    {m : Manager} (hbinary : m.binaryPath ≠ []) (h : m.Safe) : m.Runs wide defaultDataDir keep := by
  rw [runs_iff_words, execStart_tokens, ← tokens_snd wide]
  refine words_intercalate _ (by simp [tokens]) fun p hp => ?_
  obtain ⟨v, hv, rfl⟩ := mem_map.mp hp
  exact readsAs_quoteToken (ne_nil_of_mem hbinary v hv) (h v hv)

theorem Manager.safe_of_runs {wide : Char → Bool} {defaultDataDir : GoString} {m : Manager}
    (hbinary : m.binaryPath ≠ []) (h : m.Runs wide defaultDataDir false) : m.Safe := by
  rw [runs_iff_words, execStart_tokens, ← tokens_snd wide] at h
  have htokens : ∀ p ∈ m.tokens wide,
      ReadsAs false p.1 p.2 ∨ p.1 = p.2 ∧ p.2 ≠ [] ∧ Unquoted p.2 := by
    intro p hp
    obtain ⟨v, hv, rfl⟩ := mem_map.mp hp
    by_cases hq : needsQuotes v
    · exact .inl (readsAs_quoteToken (ne_nil_of_mem hbinary v hv) fun hnot => absurd hq hnot)
    · exact .inr ⟨if_neg hq, ne_nil_of_mem hbinary v hv, unquoted_of_bare hq⟩
  intro v hv hq
  exact bare_of_words htokens h _ (mem_map.mpr ⟨v, hv, rfl⟩) (if_neg hq) (unquoted_of_bare hq)

/-- The unit has the fixed lines, one `ExecStart=` line and at most one
`ReadWritePaths=` line. The words of the `ExecStart=` line are the binary
path and the arguments if no value that stands as it is has a single quote
or a backslash, and only then when unknown escapes are refused. -/
theorem systemdUnit_runs_iff (wide : Char → Bool) (defaultDataDir : GoString) (m : Manager)
    (hbinary : m.binaryPath ≠ []) :
    (∃ command paths : List GoString,
      splitLines (m.systemdUnit wide defaultDataDir) =
        (unitHead ++ command ++ unitService ++ paths ++ unitInstall, []) ∧
      command.length = 1 ∧ (∀ line ∈ command, execStartKey <+: line) ∧
      paths.length ≤ 1 ∧ ∀ line ∈ paths, readWritePathsKey <+: line) ∧
    (∀ keep, m.Safe → m.Runs wide defaultDataDir keep) ∧
    (m.Runs wide defaultDataDir false → m.Safe) := by
  refine ⟨⟨[execStartKey ++ m.execStart wide], m.readWriteLines wide defaultDataDir,
    m.splitLines_systemdUnit defaultDataDir, rfl, ?_, ?_, ?_⟩,
    fun _ => Manager.runs_of_safe hbinary, Manager.safe_of_runs hbinary⟩
  · intro line hline
    rw [List.mem_singleton.mp hline]
    exact List.prefix_append _ _
  · unfold Manager.readWriteLines
    split_ifs <;> simp
  · intro line hline
    unfold Manager.readWriteLines at hline
    split_ifs at hline
    · exact absurd hline List.not_mem_nil
    · rw [List.mem_singleton.mp hline]
      exact List.prefix_append _ _

/-- A binary under a directory with a space in its name. -/
def spacedManager : Manager where
  binaryPath := text "/home/John Doe/bin/otedama".toList
  configPath := text "/etc/otedama.yaml".toList
  dataDir := []
  serviceFlags := ⟨text "bc1q".toList, [], text "json".toList, []⟩

theorem spacedManager_runs :
    spacedManager.binaryPath ≠ [] ∧ spacedManager.Runs (fun _ => true) [] true :=
  ⟨by decide, (systemdUnit_runs_iff (fun _ => true) [] spacedManager (by decide)).2.1 true
    (by decide +kernel)⟩

/-- A configuration file in a directory with an apostrophe in its name. -/
def apostropheManager : Manager :=
  { spacedManager with configPath := text "/home/o'brien/otedama.yaml".toList }

/-- The apostrophe opens a quote that nothing closes, so there is no command line. -/
theorem apostrophe_unreadable :
    (execStarts (apostropheManager.systemdUnit (fun _ => true) [])).map (words false) = [none] ∧
    (execStarts (apostropheManager.systemdUnit (fun _ => true) [])).map (words true) = [none] := by
  decide +kernel

end Otedama.Daemon
