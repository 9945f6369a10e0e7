import Csc512.Toolkit.Report
import Csc512.Lib.Pattern
import Csc512.Lib.Sha256
import Mathlib.Data.List.Pairwise

/-!
# Secrets in process memory

The memory scanner reports every secret that its patterns match, each once, and what looks like a
token because of its entropy. The engine keeps one finding for each fingerprint, and the secret is
not in the fingerprint: it is made of the rule, the path, the line and the title, and the scanner
gives all findings of a rule the same path, line and title.

## Main results

* `secretsSurvive_iff` — distinct secrets survive exactly if no rule has found two
* `not_secretsSurvive` — two keys of one kind, of which one is left
-/

namespace Csc512

namespace Toolkit

/-! ### Fingerprints -/

/-- The fingerprint of a finding. -/
def computeFingerprint (ruleId : Text) (filePath : Option Text) (line : ℕ) (title : Text) : Text :=
  let blob := ruleId ++ '|' :: (filePath.getD (lit "None") ++ '|' :: (natText line ++ '|' :: title))
  (Sha256.hexDigest blob).take 16

/-! ### The patterns -/

/-- Match a character also if it is written in the other case. The dotless and the dotted `i`, the
long `s` and the sign for kelvin count as cases of `i`, `s` and `k`. -/
def anyCase (p : Char → Bool) (c : Char) : Bool :=
  p c || p c.toLower || p c.toUpper ||
    ((c = '\u0130' || c = '\u0131') && (p 'i' || p 'I')) ||
    (c = '\u017f' && (p 's' || p 'S')) || (c = '\u212a' && (p 'k' || p 'K'))

/-- A literal text in any case. -/
def anyCaseLiteral (s : Text) : Pattern := .seqs (s.map fun c => .char (anyCase (· = c)))

/-- Exactly `n` characters of a kind. -/
def exactly (n : ℕ) (p : Char → Bool) : Pattern := .seqs (List.replicate n (.char p))

/-- At least `n` characters of a kind, as many as possible. -/
def atLeast (n : ℕ) (p : Char → Bool) : Pattern := .seq (exactly n p) (.star (.char p))

def isLower (c : Char) : Bool := 'a' ≤ c && c ≤ 'z'

def isUpper (c : Char) : Bool := 'A' ≤ c && c ≤ 'Z'

def isDigit (c : Char) : Bool := '0' ≤ c && c ≤ '9'

def isAlnum (c : Char) : Bool := isLower c || isUpper c || isDigit c

def isHexLower (c : Char) : Bool := isDigit c || ('a' ≤ c && c ≤ 'f')

def isHex (c : Char) : Bool := isHexLower c || ('A' ≤ c && c ≤ 'F')

/-- An optional quote. -/
def optQuote : Pattern := .opt (.char fun c => c = '\'' || c = '"')

/-- What stands between a name and its value: an optional quote, `:` or `=`, an optional quote. -/
def assignment : Pattern :=
  .seqs [optQuote, .star (.char isSpace), .char fun c => c = ':' || c = '=',
    .star (.char isSpace), optQuote]

/-- One of some literals. -/
def oneOf (literals : List String) : Pattern := .alts (literals.map fun s => .literal (lit s))

/-- One of some literals, in any case. -/
def oneOfAnyCase (literals : List String) : Pattern :=
  .alts (literals.map fun s => anyCaseLiteral (lit s))

/-- A rule for secrets. -/
structure SecretPattern where
  ruleId : Text
  description : Text
  pattern : Pattern

/-- The rules. -/
def secretPatterns : List SecretPattern :=
  [⟨lit "MEM-SECRET-001", lit "AWS Access Key ID",
      .seq (.literal (lit "AKIA")) (exactly 16 fun c => isDigit c || isUpper c)⟩,
    ⟨lit "MEM-SECRET-002", lit "AWS Secret Key",
      .seqs [oneOf ["aws_secret_access_key", "secret"], assignment,
        exactly 40 fun c => isAlnum c || c ∈ ['/', '+', '=']]⟩,
    ⟨lit "MEM-SECRET-003", lit "Generic API Key",
      .seqs [.alt (.seqs [anyCaseLiteral (lit "api"), .opt (.char fun c => c = '_' || c = '-'),
          anyCaseLiteral (lit "key")]) (anyCaseLiteral (lit "apikey")), assignment,
        atLeast 20 (anyCase fun c => isAlnum c || c = '_' || c = '-')]⟩,
    ⟨lit "MEM-SECRET-004", lit "Generic Password",
      .seqs [oneOfAnyCase ["password", "passwd", "pwd"], assignment,
        atLeast 8 fun c => !isSpace c && c ≠ '\'' && c ≠ '"']⟩,
    ⟨lit "MEM-SECRET-005", lit "Connection String",
      .seqs [oneOfAnyCase ["mysql", "postgres", "mongodb", "redis", "amqp"],
        .literal (lit "://"), atLeast 10 fun c => !isSpace c]⟩,
    ⟨lit "MEM-SECRET-006", lit "Private Key Block",
      .seqs [.literal (lit "-----BEGIN "), .opt (oneOf ["RSA ", "EC ", "DSA "]),
        .literal (lit "PRIVATE KEY-----")]⟩,
    ⟨lit "MEM-SECRET-007", lit "Bearer Token",
      .seqs [anyCaseLiteral (lit "Bearer"), .plus (.char isSpace),
        .plus (.char (anyCase fun c => isAlnum c || c ∈ ['-', '.', '_', '~', '+', '/'])),
        .star (.one '=')]⟩,
    ⟨lit "MEM-SECRET-008", lit "GitHub Token",
      .seqs [.literal (lit "gh"), .char fun c => c ∈ ['p', 'o', 'u', 's', 'r'], .one '_',
        atLeast 36 fun c => isAlnum c || c = '_']⟩,
    ⟨lit "MEM-SECRET-009", lit "Slack Token",
      .seqs [.literal (lit "xox"), .char fun c => c ∈ ['b', 'a', 'p', 'r', 's'], .one '-',
        atLeast 10 fun c => isAlnum c || c = '-']⟩,
    ⟨lit "MEM-SECRET-010", lit "JWT Token",
      let isTokenChar := fun c => isAlnum c || c = '_' || c = '-'
      .seqs [.literal (lit "eyJ"), atLeast 10 isTokenChar, .one '.', atLeast 10 isTokenChar,
        .one '.', atLeast 10 isTokenChar]⟩,
    ⟨lit "MEM-SECRET-011", lit "Google Cloud API Key",
      .seq (.literal (lit "AIza")) (exactly 35 fun c => isAlnum c || c = '-' || c = '_')⟩,
    ⟨lit "MEM-SECRET-012", lit "Stripe Secret Key",
      .seq (.literal (lit "sk_live_")) (atLeast 24 isAlnum)⟩,
    ⟨lit "MEM-SECRET-013", lit "Stripe Publishable Key",
      .seq (.literal (lit "pk_live_")) (atLeast 24 isAlnum)⟩,
    ⟨lit "MEM-SECRET-014", lit "SendGrid API Key",
      let isKeyChar := fun c => isAlnum c || c = '_' || c = '-'
      .seqs [.literal (lit "SG."), exactly 22 isKeyChar, .one '.', exactly 43 isKeyChar]⟩,
    ⟨lit "MEM-SECRET-015", lit "Mailchimp API Key",
      .seqs [exactly 32 isHexLower, .literal (lit "-us"), .char isDigit, .opt (.char isDigit)]⟩,
    ⟨lit "MEM-SECRET-016", lit "Twilio API Key",
      .seq (.literal (lit "SK")) (exactly 32 isHex)⟩,
    ⟨lit "MEM-SECRET-017", lit "HashiCorp Vault Token",
      .seq (.literal (lit "hvs.")) (atLeast 24 fun c => isAlnum c || c = '_' || c = '-')⟩,
    ⟨lit "MEM-SECRET-018", lit "Heroku API Key",
      .seqs [oneOf ["HEROKU", "heroku"], .star (.char fun c => c ≠ '\n'), exactly 8 isHex, .one '-',
        exactly 4 isHex, .one '-', exactly 4 isHex, .one '-', exactly 4 isHex, .one '-',
        exactly 12 isHex]⟩,
    ⟨lit "MEM-SECRET-019", lit "PEM Certificate", .literal (lit "-----BEGIN CERTIFICATE-----")⟩,
    ⟨lit "MEM-SECRET-020", lit "Hex-Encoded Secret",
      .seqs [oneOfAnyCase ["secret", "token", "key"], assignment,
        exactly 64 (anyCase isHexLower)]⟩]

/-! ### Scanning -/

/-- What is known of the entropy of a line: whether the computed number exceeds 5, and how it is
written with two decimals. -/
structure ShannonEntropy where
  exceeds : Text → Bool
  shown : Text → Text

/-- A secret that was matched, the key by which it is recognised, and the finding for it. -/
structure Match where
  key : Text
  secret : Text
  finding : Finding

/-- The path of the findings in the memory of an image. -/
def memoryPath (source : Text) : Text := lit "memory://" ++ source

/-- The first and the last characters of a secret. -/
def redactedEnds (secret : Text) : Text :=
  secret.take 6 ++ (lit "..." ++ secret.drop (secret.length - 4))

/-- A finding of the scanner. -/
def memoryFinding (source ruleId title description : Text) (severity : NormalizedSeverity) :
    Finding where
  tool := lit "memory-forensics"
  ruleId := ruleId
  title := title
  description := description
  severity := severity
  filePath := some (memoryPath source)
  line := 0
  category := lit "memory"
  fingerprint := computeFingerprint ruleId (some (memoryPath source)) 0 title

/-- The match of a rule with a secret. -/
def SecretPattern.found (rule : SecretPattern) (source secret : Text) : Match where
  key := rule.ruleId ++ ':' :: secret.take 40
  secret := secret
  finding :=
    let redacted := if 12 < secret.length then redactedEnds secret else lit "***REDACTED***"
    memoryFinding source rule.ruleId (lit "Runtime secret detected: " ++ rule.description)
      (lit "Cleartext secret found in process memory of image " ++ source ++ lit ". Pattern: "
        ++ rule.description ++ lit ". Value (redacted): " ++ redacted) .critical

/-- What the rules match. -/
def secretMatches (raw source : Text) : List Match :=
  secretPatterns.flatMap fun rule => (rule.pattern.findTexts raw).map (rule.found source)

/-- Common variables of the environment. -/
def falsePositivePrefixes : List String :=
  ["PATH=", "HOME=", "LANG=", "TERM=", "HOSTNAME=", "SHLVL="]

/-- The characters of tokens. -/
def tokenPattern : Pattern :=
  .seqs [.atStart, atLeast 20 fun c => isAlnum c || c ∈ ['+', '/', '=', '_', '-', '.', ':'], .atEnd]

/-- Does a line look like a token? -/
def isTokenLine (entropy : ShannonEntropy) (line : Text) : Bool :=
  20 ≤ line.length && line.length ≤ 200 &&
    !(falsePositivePrefixes.any fun p => startsWith line (lit p)) &&
    entropy.exceeds line && (tokenPattern.matchStart line).isSome

/-- The lines that look like tokens. -/
def tokenLines (entropy : ShannonEntropy) (raw : Text) : List Text :=
  ((raw.splitOn '\n').map strip).filter (isTokenLine entropy)

/-- The match of a line that looks like a token. -/
def tokenMatch (entropy : ShannonEntropy) (source line : Text) : Match where
  key := lit "HI-ENTROPY:" ++ line.take 30
  secret := line
  finding := memoryFinding source (lit "MEM-ENTROPY-001")
    (lit "High-entropy string in process memory")
    (lit "A high-entropy string (Shannon=" ++ entropy.shown line
      ++ lit ") was found in memory, potentially a secret or token. Value (redacted): "
      ++ redactedEnds line) .high

/-- Everything that is matched in a text. -/
def allMatches (entropy : ShannonEntropy) (raw source : Text) : List Match :=
  secretMatches raw source ++ (tokenLines entropy raw).map (tokenMatch entropy source)

/-- The matches with a key that was not seen before. -/
def unseen (seen : List Text) : List Match → List Match
  | [] => []
  | m :: ms => if m.key ∈ seen then unseen seen ms else m :: unseen (m.key :: seen) ms

/-- The matches that are reported. -/
def reported (entropy : ShannonEntropy) (raw source : Text) : List Match :=
  unseen [] (allMatches entropy raw source)

/-- Scan a text for secrets. -/
def scanStrings (entropy : ShannonEntropy) (raw source : Text) : List Finding :=
  (reported entropy raw source).map Match.finding

/-- The memory scanner, where `dump` gives the strings in the memory of an image, if it can be
started and read. -/
def memoryForensicsScanner (entropy : ShannonEntropy) (dockerAvailable : Bool)
    (dump : Text → Option Text) : Plugin where
  name := lit "memory-forensics"
  scanModes := [lit "runtime"]
  canHandle profile := .ok (profile.image.isSome && dockerAvailable)
  execute profile :=
    match profile.image with
    | none => .error []
    | some image =>
      match dump image with
      | none => .ok []
      | some raw => .ok (scanStrings entropy raw image)

theorem execute_memoryForensicsScanner (entropy : ShannonEntropy) (dockerAvailable : Bool)
    {dump : Text → Option Text} {profile : TargetProfile} {image raw : Text}
    (himage : profile.image = some image) (hdump : dump image = some raw) :
    (memoryForensicsScanner entropy dockerAvailable dump).execute profile
      = Except.ok (scanStrings entropy raw image) := by
  unfold memoryForensicsScanner
  dsimp only
  rw [himage]
  dsimp only
  rw [hdump]

/-! ### What is reported -/

theorem unseen_sublist (seen : List Text) (ms : List Match) : (unseen seen ms).Sublist ms := by
  induction ms generalizing seen with
  | nil => exact List.Sublist.refl _
  | cons m ms ih =>
    rw [unseen]
    split
    · exact (ih seen).cons m
    · exact (ih (m.key :: seen)).cons_cons m

theorem key_not_mem_of_mem_unseen {seen : List Text} {ms : List Match} :
    ∀ m ∈ unseen seen ms, m.key ∉ seen := by
  induction ms generalizing seen with
  | nil => exact fun m hm => absurd hm List.not_mem_nil
  | cons m ms ih =>
    intro m' hm'
    rw [unseen] at hm'
    split at hm'
    · exact ih m' hm'
    · rename_i hm
      rcases List.mem_cons.mp hm' with rfl | hm'
      · exact hm
      · exact fun hseen => ih m' hm' (List.mem_cons_of_mem _ hseen)

theorem nodup_key_unseen (seen : List Text) (ms : List Match) :
    ((unseen seen ms).map Match.key).Nodup := by
  induction ms generalizing seen with
  | nil => exact List.nodup_nil
  | cons m ms ih =>
    rw [unseen]
    split
    · exact ih seen
    · refine List.nodup_cons.mpr ⟨fun hmem => ?_, ih (m.key :: seen)⟩
      obtain ⟨m', hm', hkey⟩ := List.mem_map.mp hmem
      exact key_not_mem_of_mem_unseen m' hm' (hkey ▸ List.mem_cons_self)

/-- Every key is reported. -/
theorem exists_mem_unseen {seen : List Text} {ms : List Match} {m : Match} (hm : m ∈ ms)
    (hseen : m.key ∉ seen) : ∃ m' ∈ unseen seen ms, m'.key = m.key := by
  induction ms generalizing seen with
  | nil => cases hm
  | cons m₀ ms ih =>
    rw [unseen]
    rcases List.mem_cons.mp hm with rfl | hm
    · rw [if_neg hseen]
      exact ⟨m, List.mem_cons_self, rfl⟩
    · split
      · exact ih hm hseen
      · by_cases hkey : m.key = m₀.key
        · exact ⟨m₀, List.mem_cons_self, hkey.symm⟩
        · obtain ⟨m', hm', heq⟩ := ih hm (List.not_mem_cons_of_ne_of_not_mem hkey hseen)
          exact ⟨m', List.mem_cons_of_mem _ hm', heq⟩

/-! ### Rules and keys -/

variable {entropy : ShannonEntropy} {raw source : Text}

theorem mem_allMatches {m : Match} (hm : m ∈ allMatches entropy raw source) :
    (∃ rule ∈ secretPatterns, ∃ s ∈ rule.pattern.findTexts raw, rule.found source s = m) ∨
      ∃ line ∈ tokenLines entropy raw, tokenMatch entropy source line = m := by
  rcases List.mem_append.mp hm with hm | hm
  · obtain ⟨rule, hrule, hm⟩ := List.mem_flatMap.mp hm
    exact .inl ⟨rule, hrule, List.mem_map.mp hm⟩
  · exact .inr (List.mem_map.mp hm)

/-- The names of the rules are different, also from what the scanner says of tokens. -/
theorem ruleIds_distinct : (secretPatterns.map SecretPattern.ruleId).Nodup ∧
    ∀ rule ∈ secretPatterns, ':' ∉ rule.ruleId ∧ rule.ruleId ≠ lit "HI-ENTROPY" ∧
      rule.ruleId ≠ lit "MEM-ENTROPY-001" := by
  decide +kernel

theorem eq_of_ruleId_eq {rule rule' : SecretPattern} (hrule : rule ∈ secretPatterns)
    (hrule' : rule' ∈ secretPatterns) (h : rule.ruleId = rule'.ruleId) : rule = rule' :=
  List.inj_on_of_nodup_map ruleIds_distinct.1 hrule hrule' h

/-- A key tells the rule. -/
theorem ruleId_eq_of_key_eq {m m' : Match} (hm : m ∈ allMatches entropy raw source)
    (hm' : m' ∈ allMatches entropy raw source) (hkey : m.key = m'.key) :
    m.finding.ruleId = m'.finding.ruleId := by
  have hword : ∀ {a b s t : Text}, ':' ∉ a → ':' ∉ b → a ++ ':' :: s = b ++ ':' :: t → a = b :=
    fun ha hb h => (eq_of_append_cons (p := (· ≠ ':')) (fun c hc heq => ha (heq ▸ hc))
      (fun c hc heq => hb (heq ▸ hc)) (fun h => h rfl) (fun h => h rfl) h).1
  have htoken : ∀ line, (tokenMatch entropy source line).key
      = lit "HI-ENTROPY" ++ ':' :: line.take 30 := fun line => rfl
  have hcolon : ':' ∉ lit "HI-ENTROPY" := by decide
  rcases mem_allMatches hm with ⟨rule, hrule, s, -, rfl⟩ | ⟨line, -, rfl⟩ <;>
    rcases mem_allMatches hm' with ⟨rule', hrule', s', -, rfl⟩ | ⟨line', -, rfl⟩
  · exact hword (ruleIds_distinct.2 rule hrule).1 (ruleIds_distinct.2 rule' hrule').1 hkey
  · rw [htoken] at hkey
    exact absurd (hword (ruleIds_distinct.2 rule hrule).1 hcolon hkey)
      (ruleIds_distinct.2 rule hrule).2.1
  · rw [htoken] at hkey
    exact absurd (hword (ruleIds_distinct.2 rule' hrule').1 hcolon hkey.symm)
      (ruleIds_distinct.2 rule' hrule').2.1
  · rfl

/-- The findings of a rule have one fingerprint, and its keys come from the secrets. -/
theorem same_of_ruleId_eq {m m' : Match} (hm : m ∈ allMatches entropy raw source)
    (hm' : m' ∈ allMatches entropy raw source) (h : m.finding.ruleId = m'.finding.ruleId) :
    m.finding.fingerprint = m'.finding.fingerprint ∧ (m.secret = m'.secret → m.key = m'.key) := by
  rcases mem_allMatches hm with ⟨rule, hrule, s, -, rfl⟩ | ⟨line, -, rfl⟩ <;>
    rcases mem_allMatches hm' with ⟨rule', hrule', s', -, rfl⟩ | ⟨line', -, rfl⟩
  · obtain rfl := eq_of_ruleId_eq hrule hrule' h
    exact ⟨rfl, fun hsecret => congrArg (fun s => (rule.found source s).key) hsecret⟩
  · exact absurd h (ruleIds_distinct.2 rule hrule).2.2
  · exact absurd h.symm (ruleIds_distinct.2 rule' hrule').2.2
  · exact ⟨rfl, fun hsecret => congrArg (fun s => (tokenMatch entropy source s).key) hsecret⟩

/-- No rule finds two secrets: its matches agree in the characters that make the key. -/
def OneSecretPerRule (entropy : ShannonEntropy) (raw : Text) : Prop :=
  (∀ rule ∈ secretPatterns, ∀ s ∈ rule.pattern.findTexts raw, ∀ s' ∈ rule.pattern.findTexts raw,
    s.take 40 = s'.take 40) ∧
  ∀ line ∈ tokenLines entropy raw, ∀ line' ∈ tokenLines entropy raw, line.take 30 = line'.take 30

instance : Decidable (OneSecretPerRule entropy raw) := inferInstanceAs (Decidable (_ ∧ _))

theorem OneSecretPerRule.key_eq (hone : OneSecretPerRule entropy raw) {m m' : Match}
    (hm : m ∈ allMatches entropy raw source) (hm' : m' ∈ allMatches entropy raw source)
    (h : m.finding.ruleId = m'.finding.ruleId) : m.key = m'.key := by
  rcases mem_allMatches hm with ⟨rule, hrule, s, hs, rfl⟩ | ⟨line, hline, rfl⟩ <;>
    rcases mem_allMatches hm' with ⟨rule', hrule', s', hs', rfl⟩ | ⟨line', hline', rfl⟩
  · obtain rfl := eq_of_ruleId_eq hrule hrule' h
    exact congrArg (fun t => rule.ruleId ++ ':' :: t) (hone.1 rule hrule s hs s' hs')
  · exact absurd h (ruleIds_distinct.2 rule hrule).2.2
  · exact absurd h.symm (ruleIds_distinct.2 rule' hrule').2.2
  · exact congrArg (fun t => lit "HI-ENTROPY:" ++ t) (hone.2 line hline line' hline')

/-! ### What is left in the report -/

/-- Any two findings for different secrets are in the report, as two findings. -/
def SecretsSurvive (entropy : ShannonEntropy) (raw source : Text) (report : ScanReport) : Prop :=
  (reported entropy raw source).Pairwise fun m m' =>
    m.secret ≠ m'.secret → [m.finding, m'.finding].Subperm report.findings

/-- **One rule, one secret**, if all secrets survive in a report with one finding for each
fingerprint. -/
theorem SecretsSurvive.oneSecretPerRule {report : ScanReport}
    (h : SecretsSurvive entropy raw source report)
    (hreport : (report.findings.map Finding.fingerprint).Nodup) : OneSecretPerRule entropy raw := by
  have hkeys : ∀ m ∈ allMatches entropy raw source, ∀ m' ∈ allMatches entropy raw source,
      m.finding.ruleId = m'.finding.ruleId → m.key = m'.key := by
    intro m hm m' hm' hrule
    by_contra hne
    obtain ⟨k, hk, hkey⟩ := exists_mem_unseen hm List.not_mem_nil
    obtain ⟨k', hk', hkey'⟩ := exists_mem_unseen hm' List.not_mem_nil
    have hkmem := (unseen_sublist _ _).mem hk
    have hkmem' := (unseen_sublist _ _).mem hk'
    have hkrule : k.finding.ruleId = k'.finding.ruleId :=
      (ruleId_eq_of_key_eq hkmem hm hkey).trans
        (hrule.trans (ruleId_eq_of_key_eq hkmem' hm' hkey').symm)
    obtain ⟨hfingerprint, hsecret⟩ := same_of_ruleId_eq hkmem hkmem' hkrule
    have hne' : k.key ≠ k'.key := fun heq => hne (hkey.symm.trans (heq.trans hkey'))
    have hsymm : Std.Symm fun m m' : Match =>
        m.secret ≠ m'.secret → [m.finding, m'.finding].Subperm report.findings :=
      ⟨fun a b hab hsecret => (List.Perm.swap _ _ []).subperm.trans (hab hsecret.symm)⟩
    obtain ⟨l, hperm, hsub⟩ := List.Pairwise.forall h hk hk'
      (fun heq => hne' (congrArg Match.key heq)) fun heq => hne' (hsecret heq)
    -- two findings with one fingerprint
    have hnodup := (hperm.map Finding.fingerprint).nodup_iff.mp
      (hreport.sublist (hsub.map Finding.fingerprint))
    rw [List.map_cons, List.map_cons, hfingerprint] at hnodup
    exact (List.nodup_cons.mp hnodup).1 List.mem_cons_self
  refine ⟨fun rule hrule s hs s' hs' => ?_, fun line hline line' hline' => ?_⟩
  · have hmem : ∀ s ∈ rule.pattern.findTexts raw,
        rule.found source s ∈ allMatches entropy raw source := fun s hs =>
      List.mem_append_left _ (List.mem_flatMap.mpr ⟨rule, hrule, List.mem_map_of_mem hs⟩)
    have hkey := hkeys _ (hmem s hs) _ (hmem s' hs') rfl
    exact (List.cons.inj (List.append_cancel_left hkey)).2
  · have hmem : ∀ line ∈ tokenLines entropy raw,
        tokenMatch entropy source line ∈ allMatches entropy raw source := fun line hline =>
      List.mem_append_right _ (List.mem_map_of_mem hline)
    exact List.append_cancel_left (hkeys _ (hmem line hline) _ (hmem line' hline') rfl)

/-- Different rules have different fingerprints, as far as they have matched. -/
def DistinctFingerprints (entropy : ShannonEntropy) (raw source : Text) : Prop :=
  (allMatches entropy raw source).Pairwise fun m m' =>
    m.finding.ruleId ≠ m'.finding.ruleId → m.finding.fingerprint ≠ m'.finding.fingerprint

instance : Decidable (DistinctFingerprints entropy raw source) :=
  inferInstanceAs (Decidable (List.Pairwise _ _))

theorem DistinctFingerprints.ruleId_eq (h : DistinctFingerprints entropy raw source) {m m' : Match}
    (hm : m ∈ allMatches entropy raw source) (hm' : m' ∈ allMatches entropy raw source)
    (heq : m.finding.fingerprint = m'.finding.fingerprint) :
    m.finding.ruleId = m'.finding.ruleId := by
  have hsymm : Std.Symm fun m m' : Match =>
      m.finding.ruleId ≠ m'.finding.ruleId → m.finding.fingerprint ≠ m'.finding.fingerprint :=
    ⟨fun a b hab hne => (hab hne.symm).symm⟩
  by_contra hne
  exact List.Pairwise.forall h hm hm' (fun heq => hne (heq ▸ rfl)) hne heq

/-- **All secrets survive** if no rule has found two, in a report of these findings and of others
with other fingerprints. -/
theorem OneSecretPerRule.secretsSurvive (hone : OneSecretPerRule entropy raw)
    (hdistinct : DistinctFingerprints entropy raw source) {all others : List Finding}
    {report : ScanReport} (hreport : OnePerFingerprint all report.findings)
    (hall : all.Perm (scanStrings entropy raw source ++ others))
    (hothers : ∀ f ∈ others, ∀ m ∈ allMatches entropy raw source,
      f.fingerprint ≠ m.finding.fingerprint) :
    SecretsSurvive entropy raw source report := by
  have hkey : ∀ m ∈ reported entropy raw source, ∀ m' ∈ reported entropy raw source,
      m.finding.fingerprint = m'.finding.fingerprint → m = m' := by
    intro m hm m' hm' heq
    have hmem := (unseen_sublist _ _).mem hm
    have hmem' := (unseen_sublist _ _).mem hm'
    exact List.inj_on_of_nodup_map (nodup_key_unseen [] _) hm hm'
      (hone.key_eq hmem hmem' (hdistinct.ruleId_eq hmem hmem' heq))
  have hleft : ∀ m ∈ reported entropy raw source, m.finding ∈ report.findings := by
    intro m hm
    obtain ⟨g, hg, heq⟩ := hreport.exists_mem m.finding
      (hall.mem_iff.mpr (List.mem_append_left _ (List.mem_map_of_mem hm)))
    rcases List.mem_append.mp (hall.mem_iff.mp (hreport.worst g hg).1) with hmem | hmem
    · obtain ⟨k, hk, rfl⟩ := List.mem_map.mp hmem
      obtain rfl := hkey k hk m hm heq
      exact hg
    · exact absurd heq (hothers g hmem m ((unseen_sublist _ _).mem hm))
  have hnodup := List.pairwise_map.mp (nodup_key_unseen [] (allMatches entropy raw source))
  refine List.Pairwise.imp_of_mem (fun {m m'} hm hm' hne hsecret => ?_) hnodup
  have hfindings : m.finding ≠ m'.finding := fun heq =>
    hne (congrArg Match.key (hkey m hm m' hm' (congrArg Finding.fingerprint heq)))
  refine List.subperm_of_subset (by simpa using hfindings) fun f hf => ?_
  rcases List.mem_cons.mp hf with rfl | hf
  · exact hleft m hm
  · obtain rfl := List.mem_singleton.mp hf
    exact hleft m' hm'

/-- **Distinct secrets survive** in the report of a run exactly if no rule has found two of them;
the fingerprints of the rules that match, and of what other plugins find, being different. -/
theorem secretsSurvive_iff {image : Text} {dockerAvailable : Bool} {dump : Text → Option Text}
    {plugins completed others : List Plugin} {profile : TargetProfile}
    (hcompleted : completed.Perm (selectPlugins plugins profile))
    (hscanner : completed.Perm (memoryForensicsScanner entropy dockerAvailable dump :: others))
    (himage : profile.image = some image) (hdump : dump image = some raw)
    (hdistinct : DistinctFingerprints entropy raw image)
    (hothers : ∀ f ∈ handedOver profile others, ∀ m ∈ allMatches entropy raw image,
      f.fingerprint ≠ m.finding.fingerprint) :
    SecretsSurvive entropy raw image (runScan plugins completed profile) ↔
      OneSecretPerRule entropy raw := by
  have hreport := onePerFingerprint_runScan hcompleted
  refine ⟨fun h => h.oneSecretPerRule hreport.nodup, fun hone => ?_⟩
  have hall : (handedOver profile completed).Perm
      (scanStrings entropy raw image ++ handedOver profile others) := by
    have hexecute := execute_memoryForensicsScanner entropy dockerAvailable himage hdump
    generalize memoryForensicsScanner entropy dockerAvailable dump = scanner at hscanner hexecute
    generalize scanStrings entropy raw image = found at hexecute
    have hperm : (handedOver profile completed).Perm (handedOver profile (scanner :: others)) :=
      hscanner.flatMap_right _
    refine hperm.trans (List.Perm.of_eq ?_)
    rw [handedOver, List.flatMap_cons, hexecute]
    rfl
  exact hone.secretsSurvive hdistinct hreport hall hothers

/-- Entropies of lines that are too short for a high one. -/
def lowEntropy : ShannonEntropy := ⟨fun _ => false, fun _ => []⟩

/-- A runtime scan of an image. -/
def imageProfile : TargetProfile := { mode := lit "runtime", image := some (lit "web") }

/-- A key and the head of a certificate. -/
def sampleMemory : Text := lit "AKIA0123456789ABCDEF\n-----BEGIN CERTIFICATE-----"

theorem secretsSurvive_iff_sample :
    let scanner := memoryForensicsScanner lowEntropy true fun _ => some sampleMemory
    SecretsSurvive lowEntropy sampleMemory (lit "web") (runScan [scanner] [scanner] imageProfile) := by
  intro scanner
  have hdistinct : DistinctFingerprints lowEntropy sampleMemory (lit "web") := by decide +kernel
  have hone : OneSecretPerRule lowEntropy sampleMemory := by decide +kernel
  have hperm : [scanner].Perm (selectPlugins [scanner] imageProfile) := List.Perm.of_eq rfl
  exact (secretsSurvive_iff hperm (List.Perm.refl [scanner]) rfl rfl hdistinct
    fun f hf => absurd hf List.not_mem_nil).mpr hone

/-- Two keys of one kind. -/
def twoKeys : Text := lit "AKIA0123456789ABCDEF\nAKIA0123456789ABCDEG"

/-- Of two keys of one kind, one is left. -/
theorem not_secretsSurvive : ¬ ∀ (entropy : ShannonEntropy) (raw image : Text)
    (dump : Text → Option Text) (plugins completed : List Plugin) (profile : TargetProfile),
    completed.Perm (selectPlugins plugins profile) → profile.image = some image →
    dump image = some raw → memoryForensicsScanner entropy true dump ∈ completed →
    SecretsSurvive entropy raw image (runScan plugins completed profile) := by
  intro h
  let scanner := memoryForensicsScanner lowEntropy true fun _ => some twoKeys
  have hperm : [scanner].Perm (selectPlugins [scanner] imageProfile) := List.Perm.of_eq rfl
  have hsurvive := h lowEntropy twoKeys (lit "web") (fun _ => some twoKeys) [scanner] [scanner]
    imageProfile hperm rfl rfl (List.mem_singleton_self _)
  have htwo : ¬ OneSecretPerRule lowEntropy twoKeys := by decide +kernel
  exact htwo (hsurvive.oneSecretPerRule (onePerFingerprint_runScan hperm).nodup)

end Toolkit

end Csc512
