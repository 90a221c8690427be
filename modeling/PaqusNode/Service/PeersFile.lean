import PaqusNode.Config

/-!
# PaqusNode.Service.PeersFile

The peers file (`p2p.rs`, `main.rs`).  Whenever an address enters or leaves
the table, the thread that changed it writes the file, but in a critical
section of its own: between the two, other threads may change the table and
write it as well.  The file is written under the lock of the table, so it
never falls behind an earlier write, and once nobody has a write to make it
lists the table.  A node that is started again has the same peers.

The file may also be written by hand, one address a line.
-/

namespace PaqusNode

open Network

namespace Service

open Config (Host)

/-! ## The file -/

structure PeerCache where
  peers : List String
deriving DecidableEq, Repr

/-- What `serde_json` does with a `PeerCache`: an object is printed, and read
back as it was. -/
structure CacheJson where
  toStringPretty : PeerCache → Except String String
  fromStr : String → Except String PeerCache
  roundtrip : ∀ cache, ∃ text, toStringPretty cache = .ok text ∧
    text.toList.head? = some '\x7b' ∧ fromStr text = .ok cache

section File

variable {A : Type} {n : Nat}

/-- What a line has to say: the text before a `#`, without blanks around it. -/
def lineEntry (line : List Char) : List Char := Str.trim (line.takeWhile (· ≠ '#'))

/-- The loop of `load_peers_file` over the lines from number `index` on. -/
def loadLines (host : Host A n) (path : String) (index : Nat) :
    List (List Char) → Except String (List A)
  | [] => .ok []
  | line :: rest =>
      if (lineEntry line).isEmpty then loadLines host path (index + 1) rest
      else do
        let peer ← (host.parseAddr (String.ofList (lineEntry line))).mapError fun error =>
          s!"invalid peer in {path} line {index + 1}: {error}"
        let peers ← loadLines host path (index + 1) rest
        .ok (peer :: peers)

/-- `load_peers_file`. -/
def loadPeersFile (host : Host A n) (json : CacheJson) (path : String) :
    Except String (List A) :=
  match host.readToString path with
  | .error error =>
      if error.notFound then .ok [] else .error s!"failed to read peers file {path}: {error.text}"
  | .ok contents =>
      if (contents.toList.dropWhile Str.isWhitespace).head? = some '\x7b' then do
        let cache ← (json.fromStr contents).mapError fun error =>
          s!"failed to parse peer cache {path}: {error}"
        cache.peers.mapM fun peer => (host.parseAddr peer).mapError fun error =>
          s!"invalid peer `{peer}` in {path}: {error}"
      else loadLines host path 0 (Str.lines contents.toList)

/-- `save_peers_file`, with the file system once it has been written. -/
def savePeersFile (host : Host A n) (json : CacheJson) (path : String) (peers : List A) :
    Except String (Host A n) := do
  let contents ← (json.toStringPretty ⟨peers.map host.addrToString⟩).mapError fun error =>
    s!"failed to encode peer cache {path}: {error}"
  .ok (host.withFile path contents)

/-- `save_peers_from`: the addresses of the table in their order. -/
def savePeersFrom [Ord A] [Std.TransOrd A] (host : Host A n) (json : CacheJson)
    (peersFile : Option String) (peers : BTreeMap A (PeerState A)) : Except String (Host A n) :=
  match peersFile with
  | none => .ok host
  | some path => savePeersFile host json path peers.keys

variable {host : Host A n} {json : CacheJson} {path : String}

/-- Printed peers are parsed back. -/
theorem mapM_parseAddr (peers : List A) (error : String → String → String) :
    (peers.map host.addrToString).mapM (fun peer =>
      (host.parseAddr peer).mapError (error peer)) = .ok peers := by
  induction peers with
  | nil => rfl
  | cons addr rest ih =>
      rw [List.map_cons, List.mapM_cons, host.parseAddr_toString, ih]
      rfl

/-- What is written is read back. -/
theorem savePeersFile_loads (host : Host A n) (json : CacheJson) (path : String)
    (peers : List A) :
    ∃ written, savePeersFile host json path peers = .ok written ∧
      loadPeersFile written json path = .ok peers := by
  obtain ⟨text, hprint, hbrace, hread⟩ := json.roundtrip ⟨peers.map host.addrToString⟩
  refine ⟨host.withFile path text, by rw [savePeersFile, hprint]; rfl, ?_⟩
  have hstart : (text.toList.dropWhile Str.isWhitespace).head? = some '\x7b' := by
    cases hlist : text.toList with
    | nil => rw [hlist] at hbrace; cases hbrace
    | cons c rest =>
        rw [hlist] at hbrace
        cases hbrace
        rw [List.dropWhile_cons_of_neg (by decide)]
        rfl
  simp only [loadPeersFile, Host.withFile, if_true, hstart, hread]
  exact mapM_parseAddr peers _

end File

end Service

namespace Reference

/-! A text that stands for a list of texts: each character is marked, and each
text ended. -/

/-- The marked characters of the texts. -/
def printPeers (peers : List String) : List Char :=
  peers.flatMap fun peer => (peer.toList.flatMap fun c => ['\\', c]) ++ [',']

/-- What is marked is read, `read` being the start of the current text. -/
def scanPeers (read : List Char) : List Char → Option (List String)
  | '\\' :: c :: rest => scanPeers (read ++ [c]) rest
  | ',' :: rest => (scanPeers [] rest).map (String.ofList read :: ·)
  | [] => some []
  | _ => none

/-- A printed peer is scanned up to its comma. -/
theorem scanPeers_marked (read peer rest : List Char) :
    scanPeers read ((peer.flatMap fun c => ['\\', c]) ++ ',' :: rest) =
      (scanPeers [] rest).map (String.ofList (read ++ peer) :: ·) := by
  induction peer generalizing read with
  | nil => rw [List.flatMap_nil, List.nil_append, scanPeers, List.append_nil]
  | cons c peer ih =>
      rw [List.flatMap_cons, List.append_assoc, List.cons_append, List.singleton_append, scanPeers,
        ih, List.append_assoc, List.singleton_append]

/-- What is printed is scanned back. -/
theorem scanPeers_printPeers (peers : List String) :
    scanPeers [] (printPeers peers) = some peers := by
  induction peers with
  | nil => rfl
  | cons peer rest ih =>
      have hprint : printPeers (peer :: rest) =
          (peer.toList.flatMap fun c => ['\\', c]) ++ ',' :: printPeers rest := by
        simp [printPeers]
      rw [hprint, scanPeers_marked, ih, List.nil_append, String.ofList_toList]
      rfl

def cacheJson : Service.CacheJson where
  toStringPretty cache := .ok (String.ofList ('\x7b' :: printPeers cache.peers))
  fromStr text :=
    match (scanPeers [] text.toList.tail).map Service.PeerCache.mk with
    | some cache => .ok cache
    | none => .error "expected value at line 1 column 1"
  roundtrip cache := by
    refine ⟨_, rfl, by rw [String.toList_ofList]; rfl, ?_⟩
    rw [String.toList_ofList, List.tail_cons, scanPeers_printPeers]
    rfl

end Reference

namespace Service

open Config (Host)

/-! ## Files written by hand -/

/-- A line of such a file: blanks, a word or none, blanks, and a comment. -/
structure ListedLine where
  left : List Char
  word : List Char
  right : List Char
  comment : Option (List Char)
  left_blank : ∀ c ∈ left, Str.isWhitespace c
  right_blank : ∀ c ∈ right, Str.isWhitespace c
  plain : ∀ c ∈ word, ¬Str.isWhitespace c ∧ c ≠ '#'
  oneLine : '\n' ∉ left ++ word ++ right ++ comment.getD []

namespace ListedLine

/-- The line as it stands in the file. -/
def text (line : ListedLine) : List Char :=
  line.left ++ line.word ++ line.right ++ (line.comment.map ('#' :: ·)).getD []

theorem newline_not_mem_text (line : ListedLine) : '\n' ∉ line.text := by
  have hone := line.oneLine
  unfold text
  cases hcomment : line.comment with
  | none => simpa [hcomment] using hone
  | some comment => simpa [hcomment] using hone

end ListedLine

/-- The file: lines that end, and a last one that may not; it is not empty, or
it would not be a line. -/
structure ListedFile where
  ended : List ListedLine
  last : Option ListedLine
  last_ne : ∀ line ∈ last, line.text ≠ []

namespace ListedFile

def lines (file : ListedFile) : List ListedLine := file.ended ++ file.last.toList

def text (file : ListedFile) : List Char :=
  (file.ended.flatMap fun line => line.text ++ ['\n']) ++ file.last.elim [] ListedLine.text

end ListedFile

/-- Blanks at the end of a line say nothing, in a comment or out of it. -/
theorem lineEntry_append_of_blank {ending : List Char} (hending : ∀ c ∈ ending, Str.isWhitespace c)
    (line : List Char) : lineEntry (line ++ ending) = lineEntry line := by
  have hplain : ∀ c ∈ ending, (c ≠ '#') := by
    rintro c hc rfl
    exact absurd (hending _ hc) (by decide)
  unfold lineEntry
  rw [List.takeWhile_append]
  split
  · next hall =>
      have hline : line.takeWhile (· ≠ '#') = line :=
        List.IsPrefix.eq_of_length (List.takeWhile_prefix _) hall
      rw [hline, List.takeWhile_eq_self_iff.mpr (by simpa using hplain),
        Str.trim_append_of_blank hending]
  · rfl

/-- The entry of a line is its word, whatever stands around it. -/
theorem ListedLine.lineEntry_text (line : ListedLine) : lineEntry line.text = line.word := by
  have hblank : ∀ c, Str.isWhitespace c → c ≠ '#' := by
    rintro c hc rfl
    exact absurd hc (by decide)
  have hbefore : ∀ c ∈ line.left ++ line.word ++ line.right, decide (c ≠ '#') = true := by
    intro c hc
    rw [List.mem_append, List.mem_append] at hc
    rcases hc with (hc | hc) | hc
    · exact decide_eq_true (hblank c (line.left_blank c hc))
    · exact decide_eq_true (line.plain c hc).2
    · exact decide_eq_true (hblank c (line.right_blank c hc))
  have htake : line.text.takeWhile (· ≠ '#') = line.left ++ line.word ++ line.right := by
    rw [text, List.takeWhile_append_of_pos hbefore]
    cases line.comment with
    | none => exact List.append_nil _
    | some comment => rw [Option.map_some, Option.getD_some, List.takeWhile_cons_of_neg (by simp),
        List.append_nil]
  rw [lineEntry, htake]
  by_cases hword : line.word = []
  · rw [hword, List.append_nil, Str.trim_append_of_blank line.right_blank, Str.trim,
      List.dropWhile_eq_nil_iff.mpr line.left_blank]
    rfl
  · exact Str.trim_append line.left_blank line.right_blank (fun c hc => (line.plain c hc).1) hword

/-- The words of the file, found line by line. -/
theorem ListedFile.lineEntry_lines (file : ListedFile) :
    (Str.lines file.text).map lineEntry = file.lines.map ListedLine.word := by
  obtain ⟨ended, last, hlast⟩ := file
  induction ended with
  | nil =>
      cases last with
      | none => rfl
      | some line =>
          have hline := line.newline_not_mem_text
          simp [text, lines, Str.lines, Str.splitInclusive_of_not_mem hline (hlast line rfl),
            Str.stripLine_of_not_mem hline, line.lineEntry_text]
  | cons line rest ih =>
      obtain ⟨ending, hpiece, hending⟩ := Str.exists_stripLine_append (line.text ++ ['\n'])
      have hentry : lineEntry (Str.stripLine (line.text ++ ['\n'])) = line.word := by
        rw [← lineEntry_append_of_blank hending, ← hpiece,
          lineEntry_append_of_blank (by simp [Str.isWhitespace]), line.lineEntry_text]
      rw [text, List.flatMap_cons, List.append_assoc, List.append_assoc, List.singleton_append,
        Str.lines, Str.splitInclusive_append line.newline_not_mem_text, List.map_cons,
        List.map_cons, hentry]
      exact congrArg _ ih

section Listed

variable {A : Type} {n : Nat} {host : Host A n} {path : String}

/-- The loop reads the words; empty lines only count. -/
theorem loadLines_of_words {lines : List (List Char)} {words : List (List Char)}
    (hwords : lines.map lineEntry = words) {index : Nat} {peers : List A}
    (hpeers : (words.filter (!·.isEmpty)).mapM (fun word => host.parseAddr (String.ofList word)) =
      .ok peers) : loadLines host path index lines = .ok peers := by
  induction lines generalizing words index peers with
  | nil =>
      subst hwords
      exact hpeers
  | cons line rest ih =>
      subst hwords
      rw [List.map_cons, List.filter_cons] at hpeers
      unfold loadLines
      split
      · next hempty =>
          rw [hempty] at hpeers
          exact ih rfl hpeers
      · next hword =>
          rw [Bool.not_eq_true] at hword
          rw [hword, Bool.not_false, if_pos rfl, List.mapM_cons] at hpeers
          obtain ⟨peer, hpeer, hpeers⟩ := Except.bind_eq_ok.mp hpeers
          obtain ⟨others, hothers, hpeers⟩ := Except.bind_eq_ok.mp hpeers
          cases hpeers
          rw [hpeer, ih rfl hothers]
          rfl

/-- The first word that is no address ends it. -/
theorem loadLines_of_bad {before after : List (List Char)} {line : List Char} {index : Nat}
    {peers : List A} {error : String}
    (hbefore : loadLines host path index before = .ok peers)
    (hline : (lineEntry line).isEmpty = false)
    (herror : host.parseAddr (String.ofList (lineEntry line)) = .error error) :
    loadLines host path index (before ++ line :: after) =
      .error s!"invalid peer in {path} line {index + before.length + 1}: {error}" := by
  induction before generalizing index peers with
  | nil =>
      rw [List.nil_append, loadLines, hline, herror]
      rfl
  | cons first rest ih =>
      have hindex : index + (first :: rest).length + 1 = index + 1 + rest.length + 1 := by
        rw [List.length_cons]
        omega
      rw [hindex, List.cons_append]
      unfold loadLines at hbefore ⊢
      split
      · next hempty =>
          rw [if_pos hempty] at hbefore
          exact ih hbefore
      · next hword =>
          rw [if_neg hword] at hbefore
          obtain ⟨peer, hpeer, hbefore⟩ := Except.bind_eq_ok.mp hbefore
          obtain ⟨others, hothers, -⟩ := Except.bind_eq_ok.mp hbefore
          rw [hpeer, ih hothers]
          rfl

/-- **A peers file written by hand.**  Let the lines of a text file hold a word
or none each, with blanks around it and a comment after it, and let the file
not look like an object.  If the words are addresses, they are loaded in the
order of the lines; if not, the error names the line of the first that is
none, and says what is wrong with it. -/
theorem listed_peers_load (host : Host A n) (json : CacheJson) (path : String)
    {file : ListedFile}
    (hstart : (file.text.dropWhile Str.isWhitespace).head? ≠ some '\x7b') :
    (∀ peers, ((file.lines.map ListedLine.word).filter (!·.isEmpty)).mapM
        (fun word => host.parseAddr (String.ofList word)) = .ok peers →
      loadPeersFile (host.withFile path (String.ofList file.text)) json path =
        .ok peers) ∧
      ∀ before line after peers error, file.lines = before ++ line :: after →
        ((before.map ListedLine.word).filter (!·.isEmpty)).mapM
          (fun word => host.parseAddr (String.ofList word)) = .ok peers →
        line.word ≠ [] → host.parseAddr (String.ofList line.word) = .error error →
        loadPeersFile (host.withFile path (String.ofList file.text)) json path =
          .error s!"invalid peer in {path} line {before.length + 1}: {error}" := by
  have hload : loadPeersFile (host.withFile path (String.ofList file.text)) json
      path = loadLines (host.withFile path (String.ofList file.text)) path 0
        (Str.lines file.text) := by
    simp only [loadPeersFile, Host.withFile, if_true, String.toList_ofList, if_neg hstart]
  rw [hload]
  constructor
  · exact fun peers hpeers => loadLines_of_words file.lineEntry_lines hpeers
  · intro before line after peers error hsplit hbefore hword herror
    -- the lines of the file, cut at the bad one
    have hentries := file.lineEntry_lines
    rw [hsplit, List.map_append] at hentries
    obtain ⟨front, back, hlines, hfront, hback⟩ := List.map_eq_append_iff.mp hentries
    obtain ⟨bad, rest, rfl, hbad, -⟩ := List.map_eq_cons_iff.mp hback
    have hlength : front.length = before.length := by
      simpa using congrArg List.length hfront
    have hnonempty : (lineEntry bad).isEmpty = false := by
      rw [hbad]
      simpa using hword
    have hindex : before.length + 1 = 0 + front.length + 1 := by omega
    rw [hlines, hindex]
    exact loadLines_of_bad (loadLines_of_words hfront hbefore) hnonempty (hbad ▸ herror)

end Listed

end Service

namespace Reference

theorem plain_of_all {word : List Char}
    (h : word.all (fun c => !Str.isWhitespace c && c != '#') = true) :
    ∀ c ∈ word, ¬Str.isWhitespace c ∧ c ≠ '#' := by
  intro c hc
  simpa using List.all_eq_true.mp h c hc

/-- `# peers`, then the two addresses with an empty line between them; the
last line does not end. -/
def listedFile : Service.ListedFile where
  ended := [⟨[], [], [], some " peers".toList, nofun, nofun, nofun, by decide⟩,
    ⟨[' '], "0.0.0.0:5555".toList, ['\r'], none, List.all_eq_true.mp rfl, List.all_eq_true.mp rfl,
      plain_of_all rfl, by decide⟩,
    ⟨[], [], ['\t'], none, nofun, List.all_eq_true.mp rfl, nofun, by decide⟩]
  last := some ⟨[], "127.0.0.1:6666".toList, [' '], some "rpc".toList, nofun,
    List.all_eq_true.mp rfl, plain_of_all rfl, by decide⟩
  last_ne := by simp [Service.ListedLine.text]

/-- A host without a port. -/
def listedHost : Service.ListedLine :=
  ⟨[], "localhost".toList, [], none, nofun, nofun, plain_of_all rfl, by decide⟩

/-- The same lines, all ended, and then the host. -/
def listedHostFile : Service.ListedFile where
  ended := listedFile.lines ++ [listedHost]
  last := none
  last_ne := nofun

end Reference

/-- The two addresses are loaded; with the host in the fifth line they are not. -/
theorem Service.listed_peers_load_of_comments :
    Service.loadPeersFile (Reference.host.withFile "peers.txt"
        (String.ofList Reference.listedFile.text)) Reference.cacheJson "peers.txt" =
          .ok [true, false] ∧
      Service.loadPeersFile (Reference.host.withFile "peers.txt"
        (String.ofList Reference.listedHostFile.text)) Reference.cacheJson "peers.txt" =
          .error "invalid peer in peers.txt line 5: invalid socket address syntax" :=
  ⟨(Service.listed_peers_load Reference.host Reference.cacheJson "peers.txt"
      (by decide +kernel)).1 [true, false] (Except.eq_ok_of_toOption (by decide +kernel)),
    (Service.listed_peers_load Reference.host Reference.cacheJson "peers.txt"
      (by decide +kernel)).2 Reference.listedFile.lines Reference.listedHost [] [true, false] _ rfl
      (Except.eq_ok_of_toOption (by decide +kernel)) (by decide +kernel) rfl⟩

namespace Service

open Config (Host)

/-! ## Changes of the table -/

section Changes

variable {P : Paqus} {A : Type} [Ord A] [Std.TransOrd A] [DecidableEq A]

/-- The loop of `add_peer_infos_to` with the flag it returns: whether an address
was new. -/
def addPeerInfosTo (parse : String → Option A) (config : RunConfig A)
    (known : BTreeMap A (PeerState A)) (now : Nat) :
    List PeerInfo → BTreeMap A (PeerState A) × Bool → BTreeMap A (PeerState A) × Bool
  | [], (current, changed) => (current, changed)
  | info :: rest, (current, changed) =>
      if config.maxPeers ≤ current.size then (current, changed)
      else
        match parse info.address with
        | none => addPeerInfosTo parse config known now rest (current, changed)
        | some addr =>
            if addr ∈ config.publicAddrs ∨ addr ∈ config.listenAddrs then
              addPeerInfosTo parse config known now rest (current, changed)
            else if known.contains addr ∨ current.contains addr then
              addPeerInfosTo parse config known now rest (current, changed)
            else
              addPeerInfosTo parse config known now rest
                (current.insert addr (.new addr now), true)

namespace NodeService

/-- Whether `add_peer_infos` returns that the table has changed. -/
def learns (parse : String → Option A) (s : NodeService P A) (now : Nat) (infos : List PeerInfo) :
    Bool :=
  (addPeerInfosTo parse s.config s.peers now infos (s.peers, false)).2

/-- Whether a failed poll is the one that removes the peer. -/
def drops (s : NodeService P A) (now : Nat) (peer : A) : Bool :=
  match s.peers[peer]? with
  | none => false
  | some state => maxPeerFailures ≤ (state.markFailed now).failures

/-- Whether the thread goes on to `save_peers` after the event. -/
def savesAfter (parse : String → Option A) (s : NodeService P A) (now : Nat) : Event P A → Bool
  | .poll _ (.ok _) => false
  | .poll peer (.error _) => s.drops now peer
  | .preflightPoll _ _ => false
  | .gateway (.error _) => false
  | .gateway (.ok infos) =>
      s.config.gatewayUrl.isSome && decide (0 < s.config.maxPeers - s.peers.size) &&
        !infos.isEmpty && s.learns parse now infos
  | .peers infos => s.learns parse now infos
  | .node _ => false

end NodeService

/-- It is the loop that `addInfos` is, and without the flag nothing was
inserted. -/
theorem addPeerInfosTo_eq (parse : String → Option A) (config : RunConfig A)
    (known : BTreeMap A (PeerState A)) (now : Nat) (infos : List PeerInfo)
    (current : BTreeMap A (PeerState A)) (changed : Bool) :
    ∃ flag, addPeerInfosTo parse config known now infos (current, changed) =
        (NodeService.addInfos parse config known now infos current, flag) ∧
      (flag = false → changed = false ∧
        NodeService.addInfos parse config known now infos current = current) := by
  induction infos generalizing current changed with
  | nil => exact ⟨changed, rfl, fun h => ⟨h, rfl⟩⟩
  | cons info rest ih =>
      unfold addPeerInfosTo NodeService.addInfos
      by_cases hfull : config.maxPeers ≤ current.size
      · rw [if_pos hfull, if_pos hfull]
        exact ⟨changed, rfl, fun h => ⟨h, rfl⟩⟩
      rw [if_neg hfull, if_neg hfull]
      cases parse info.address with
      | none => exact ih current changed
      | some addr =>
          by_cases hown : addr ∈ config.publicAddrs ∨ addr ∈ config.listenAddrs
          · simp only [if_pos hown]
            exact ih current changed
          by_cases hknown : known.contains addr ∨ current.contains addr
          · simp only [if_neg hown, if_pos hknown]
            exact ih current changed
          · simp only [if_neg hown, if_neg hknown]
            obtain ⟨flag, heq, hflag⟩ := ih (current.insert addr (.new addr now)) true
            exact ⟨flag, heq, fun h => absurd (hflag h).1 (by decide)⟩

variable {parse : String → Option A} {now : Nat} {s : NodeService P A}

theorem NodeService.addPeerInfos_of_not_learns {infos : List PeerInfo}
    (h : s.learns parse now infos = false) : (s.addPeerInfos parse now infos).peers = s.peers := by
  obtain ⟨flag, heq, hflag⟩ := addPeerInfosTo_eq parse s.config s.peers now infos s.peers false
  rw [learns, heq] at h
  exact (hflag h).2

variable [Std.LawfulEqOrd A]

/-- An entry that is replaced keeps its place. -/
theorem keys_alter {peers : BTreeMap A (PeerState A)} {addr : A}
    {f : Option (PeerState A) → Option (PeerState A)}
    (hf : (f peers[addr]?).isSome = (peers[addr]?).isSome) :
    (peers.alter addr f).keys = peers.keys := by
  refine BTreeMap.keys_eq_of_isSome fun k => ?_
  rw [BTreeMap.getElem?_alter_eq]
  split
  · next heq => rw [← heq, hf]
  · rfl

/-- **If the thread does not save, the addresses are the same.** -/
theorem NodeService.keys_step_of_not_saves {event : Event P A}
    (h : s.savesAfter parse now event = false) :
    (s.step parse now event).peers.keys = s.peers.keys := by
  cases event with
  | poll peer result =>
      cases result with
      | ok poll => exact keys_alter (Option.isSome_map)
      | error error =>
          refine keys_alter ?_
          simp only [savesAfter, drops] at h
          cases hstate : s.peers[peer]? with
          | none => rfl
          | some state =>
              rw [hstate] at h
              rw [Option.bind_some, if_neg (of_decide_eq_false h)]
              rfl
  | preflightPoll peer result =>
      cases result with
      | ok poll => exact keys_alter (Option.isSome_map)
      | error error => exact keys_alter (Option.isSome_map)
  | gateway answer =>
      change (s.refreshGatewayPeers parse now answer).peers.keys = s.peers.keys
      unfold refreshGatewayPeers
      split
      · rfl
      next hgateway =>
      split
      · rfl
      next hroom =>
      cases answer with
      | error error => rfl
      | ok infos =>
          rw [Bool.not_eq_true, Option.isNone_eq_false_iff] at hgateway
          cases infos with
          | nil => rfl
          | cons info rest =>
              simp only [savesAfter, hgateway, decide_eq_true (Nat.pos_of_ne_zero hroom),
                List.isEmpty_cons, Bool.not_false, Bool.true_and] at h
              exact congrArg _ (addPeerInfos_of_not_learns h)
  | peers infos => exact congrArg _ (addPeerInfos_of_not_learns h)
  | node node => rfl

/-- No event takes the table over the limit. -/
theorem NodeService.size_step_le (parse : String → Option A) (now : Nat) (event : Event P A)
    (h : s.peers.size ≤ s.config.maxPeers) :
    (s.step parse now event).peers.size ≤ s.config.maxPeers := by
  have halter : ∀ {addr : A} {f : Option (PeerState A) → Option (PeerState A)}, f none = none →
      (s.peers.alter addr f).size ≤ s.config.maxPeers := by
    intro addr f hnone
    refine Nat.le_trans (BTreeMap.size_le_of_isSome fun k hk => ?_) h
    rw [BTreeMap.getElem?_alter_eq] at hk
    split at hk
    · next heq =>
        subst heq
        cases hold : s.peers[addr]? with
        | none => rw [hold, hnone] at hk; cases hk
        | some state => rfl
    · exact hk
  cases event with
  | poll peer result => cases result <;> exact halter rfl
  | preflightPoll peer result => cases result <;> exact halter rfl
  | gateway answer =>
      change (s.refreshGatewayPeers parse now answer).peers.size ≤ s.config.maxPeers
      unfold refreshGatewayPeers
      split
      · exact h
      split
      · exact h
      cases answer with
      | error error => exact h
      | ok infos => exact size_addInfos_le parse infos h
  | peers infos => exact size_addInfos_le parse infos h
  | node node => exact h

end Changes

/-! ## Threads -/

/-- The threads that change the table: the main loop, and one for each accepted
connection. -/
inductive Thread where
  | main
  | stream (id : Nat)
deriving DecidableEq, Repr

/-- What a thread does next. -/
inductive Act (P : Paqus) (A : Type)
  /-- A critical section, at the instant `now`. -/
  | event (thread : Thread) (now : Nat) (event : Event P A)
  /-- The write of the thread that has changed the table. -/
  | save (thread : Thread)
  /-- The write of `shutdown`. -/
  | shutdown

/-- The service with the file system; `owes` are the threads that have changed
the table and not written it yet. -/
structure Process (P : Paqus) (A : Type) [Ord A] (n : Nat) where
  service : NodeService P A
  host : Host A n
  owes : List Thread

namespace Process

variable {P : Paqus} {A : Type} [Ord A] [Std.TransOrd A] {n : Nat}

/-- The file is written; as in the source, nobody looks at the result. -/
def saved (json : CacheJson) (peersFile : Option String) (x : Process P A n) : Process P A n :=
  match savePeersFrom x.host json peersFile x.service.peers with
  | .ok host => { x with host := host }
  | .error _ => x

variable [DecidableEq A]

/-- One act, if the thread can do it now. -/
def step (parse : String → Option A) (json : CacheJson) (peersFile : Option String)
    (x : Process P A n) : Act P A → Option (Process P A n)
  | .event thread now event =>
      if thread ∈ x.owes then none
      else some { x with
        service := x.service.step parse now event
        owes := if x.service.savesAfter parse now event then thread :: x.owes else x.owes }
  | .save thread =>
      if thread ∈ x.owes then
        let x := x.saved json peersFile
        some { x with owes := x.owes.erase thread }
      else none
  | .shutdown => if .main ∈ x.owes then none else some (x.saved json peersFile)

/-- Acts of the threads, in any order that they allow. -/
def run (parse : String → Option A) (json : CacheJson) (peersFile : Option String)
    (x : Process P A n) (acts : List (Act P A)) : Option (Process P A n) :=
  acts.foldlM (fun x act => x.step parse json peersFile act) x

/-- The process after `preflight`, which ends with a write. -/
def opened (parse : String → Option A) (json : CacheJson) (peersFile : Option String)
    (host : Host A n) (node : Node P) (config : RunConfig A) (loaded : List A) (start : Nat)
    (answer : Except String (List PeerInfo)) (polls : A → Nat × Except String PeerPoll) :
    Process P A n :=
  saved json peersFile ⟨(NodeService.new node (startPeers config loaded) start).preflightPeers
    parse start answer polls, host, []⟩

variable {parse : String → Option A} {json : CacheJson} {path : String} {x x' : Process P A n}

omit [DecidableEq A] in
/-- Writing changes the file and nothing else. -/
theorem saved_eq (json : CacheJson) (path : String) (x : Process P A n) :
    ∃ host, x.saved json (some path) = { x with host := host } ∧
      loadPeersFile host json path = .ok x.service.peers.keys := by
  obtain ⟨host, hsave, hload⟩ :=
    savePeersFile_loads x.host json path x.service.peers.keys
  refine ⟨host, ?_, hload⟩
  simp only [saved, savePeersFrom, hsave]

/-- The file lists the addresses of the table. -/
def Listed (json : CacheJson) (path : String) (x : Process P A n) : Prop :=
  loadPeersFile x.host json path = .ok x.service.peers.keys

/-- What an act does: an event leaves the file alone, and the thread owes a
write unless the addresses are the same; a write makes the file list them. -/
theorem step_cases {act : Act P A}
    (h : x.step parse json (some path) act = some x') :
    (∃ thread now event, x'.host = x.host ∧ x'.service = x.service.step parse now event ∧
        x'.owes =
          if x.service.savesAfter parse now event then thread :: x.owes else x.owes) ∨
      x'.service = x.service ∧ x'.Listed json path := by
  cases act with
  | event thread now event =>
      simp only [step] at h
      split at h
      · cases h
      · cases h
        exact .inl ⟨thread, now, event, rfl, rfl, rfl⟩
  | save thread =>
      obtain ⟨host, hsaved, hload⟩ := saved_eq json path x
      simp only [step] at h
      split at h
      · cases h
        rw [hsaved]
        exact .inr ⟨rfl, hload⟩
      · cases h
  | shutdown =>
      obtain ⟨host, hsaved, hload⟩ := saved_eq json path x
      simp only [step] at h
      split at h
      · cases h
      · cases h
        rw [hsaved]
        exact .inr ⟨rfl, hload⟩

/-- Somebody has a write to make, or there is nothing to write. -/
def Tracked (json : CacheJson) (path : String) (x : Process P A n) : Prop :=
  x.owes ≠ [] ∨ x.Listed json path

variable [Std.LawfulEqOrd A]

/-- A step of the service keeps track of the file. -/
theorem Tracked.step {act : Act P A} (hx : x.Tracked json path)
    (h : x.step parse json (some path) act = some x') : x'.Tracked json path := by
  obtain ⟨thread, now, event, hhost, hservice, howes⟩ | ⟨-, hlisted⟩ := step_cases h
  · cases hsaves : x.service.savesAfter parse now event with
    | true =>
        rw [hsaves, if_pos rfl] at howes
        exact .inl (howes ▸ List.cons_ne_nil thread x.owes)
    | false =>
        rw [hsaves, if_neg Bool.false_ne_true] at howes
        rcases hx with hother | hlisted
        · exact .inl (howes ▸ hother)
        · refine .inr ?_
          rw [Listed, hhost, hservice, NodeService.keys_step_of_not_saves hsaves]
          exact hlisted
  · exact .inr hlisted

/-- So does any number of steps. -/
theorem Tracked.run {acts : List (Act P A)} (hx : x.Tracked json path)
    (h : x.run parse json (some path) acts = some x') : x'.Tracked json path := by
  induction acts generalizing x with
  | nil =>
      cases h
      exact hx
  | cons act rest ih =>
      obtain ⟨y, hstep, hrest⟩ := Option.bind_eq_some_iff.mp h
      exact ih (hx.step hstep) hrest

omit [Std.LawfulEqOrd A] in
/-- The file lists the table as it was at some moment of the run. -/
theorem run_listed {acts : List (Act P A)} (hx : x.Listed json path)
    (h : x.run parse json (some path) acts = some x') :
    ∃ past y, past <+: acts ∧ x.run parse json (some path) past = some y ∧
      loadPeersFile x'.host json path = .ok y.service.peers.keys := by
  induction acts using List.reverseRecOn generalizing x' with
  | nil =>
      cases h
      exact ⟨[], x, List.prefix_rfl, rfl, hx⟩
  | append_singleton acts act ih =>
      have hlast := h
      rw [run, List.foldlM_append] at hlast
      obtain ⟨y, hacts, hstep⟩ := Option.bind_eq_some_iff.mp hlast
      obtain ⟨z, hstep, hlast⟩ := Option.bind_eq_some_iff.mp hstep
      cases hlast
      obtain ⟨-, -, -, hhost, -⟩ | ⟨-, hlisted⟩ := step_cases hstep
      · obtain ⟨past, z, hpast, hz, hload⟩ := ih hacts
        exact ⟨past, z, hpast.trans (List.prefix_append acts [act]), hz, hhost ▸ hload⟩
      · exact ⟨acts ++ [act], x', List.prefix_rfl, h, hlisted⟩

/-- The table stays within the limit. -/
theorem run_size_le {acts : List (Act P A)} {config : RunConfig A}
    (hconfig : x.service.config = config) (hx : x.service.peers.size ≤ config.maxPeers)
    (h : x.run parse json (some path) acts = some x') :
    x'.service.peers.size ≤ config.maxPeers := by
  induction acts generalizing x with
  | nil =>
      cases h
      exact hx
  | cons act rest ih =>
      obtain ⟨y, hstep, hrest⟩ := Option.bind_eq_some_iff.mp h
      obtain ⟨-, now, event, -, hservice, -⟩ | ⟨hservice, -⟩ := step_cases hstep
      · subst hconfig
        refine ih ?_ ?_ hrest
        · rw [hservice, NodeService.step_config]
        · rw [hservice]
          exact NodeService.size_step_le parse now event hx
      · exact ih (hservice ▸ hconfig) (hservice ▸ hx) hrest

end Process

/-! ## Starting again -/

section Restart

variable {P : Paqus} {A : Type} [Ord A] [Std.TransOrd A] [Std.LawfulEqOrd A] [DecidableEq A]
  {n : Nat} {config : RunConfig A}

omit [Ord A] [Std.TransOrd A] [Std.LawfulEqOrd A] in
/-- If there is room for the configured peers that the file does not list,
nobody is cut off. -/
theorem mem_startPeers_of_room {loaded : List A}
    (hroom : ((dedupePeers config.peers).filter (· ∉ loaded)).length + loaded.length ≤
      config.maxPeers) {addr : A} :
    addr ∈ (startPeers config loaded).peers ↔ addr ∈ config.peers ∨ addr ∈ loaded := by
  have hsub : dedupePeers (config.peers ++ loaded) ⊆
      (dedupePeers config.peers).filter (· ∉ loaded) ++ loaded := by
    intro a ha
    rw [dedupePeers, Retain.mem_firsts, List.mem_append] at ha
    rw [List.mem_append, List.mem_filter, dedupePeers, Retain.mem_firsts, decide_eq_true_eq]
    tauto
  have hlength := ((Retain.nodup_firsts _).subperm hsub).length_le
  rw [List.length_append] at hlength
  rw [startPeers, dedupePeers, List.take_of_length_le (Nat.le_trans hlength hroom),
    Retain.mem_firsts, List.mem_append]

namespace NodeService

/-- The service starts with the configured peers. -/
theorem mem_keys_new (node : Node P) (t : Nat) {addr : A} :
    addr ∈ (new node config t).peers.keys ↔ addr ∈ config.peers := by
  rw [BTreeMap.mem_keys_iff]
  constructor
  · intro h
    obtain ⟨state, hstate⟩ := Option.isSome_iff_exists.mp h
    exact (getElem?_new hstate).1
  · exact fun h => BTreeMap.isSome_getElem?_foldl_insert id _ h

/-- `preflight` stays within the limit as well. -/
theorem size_preflightPeers_le {parse : String → Option A} {s : NodeService P A} {t : Nat}
    (answer : Except String (List PeerInfo)) (polls : A → Nat × Except String PeerPoll)
    (h : s.peers.size ≤ s.config.maxPeers) :
    (s.preflightPeers parse t answer polls).peers.size ≤ s.config.maxPeers := by
  have hpolls : ∀ (rest : List A) (s : NodeService P A), s.peers.size ≤ s.config.maxPeers →
      (rest.foldl (fun s peer => s.recordPreflight (polls peer).1 peer (polls peer).2)
        s).peers.size ≤ s.config.maxPeers := by
    intro rest
    induction rest with
    | nil => exact fun s h => h
    | cons peer rest ih =>
        intro s h
        have hpoll := size_step_le parse (polls peer).1 (.preflightPoll peer (polls peer).2) h
        have hconfig : (s.recordPreflight (polls peer).1 peer (polls peer).2).config = s.config :=
          recordPreflight_config peer _
        rw [← hconfig] at hpoll ⊢
        exact ih _ hpoll
  have hgateway := size_step_le parse t (.gateway answer) h
  have hconfig : (s.refreshGatewayPeers parse t answer).config = s.config :=
    refreshGatewayPeers_config answer
  rw [← hconfig] at hgateway ⊢
  exact hpolls _ _ hgateway

end NodeService

/-- **A node that is started again has its peers.**  Let the service start with
any configuration and peers file, and let the main loop and the streams do
what they do, in any order.  However the process ends, the file can be read
and lists the addresses that the table had at some moment.  If no thread had
a write to make, these are the addresses of the table; and a node started
from there has exactly them and the configured ones, provided there is room
for those of the latter that had been dropped. -/
theorem peers_survive_restart (parse : String → Option A) (json : CacheJson) (path : String)
    (host : Host A n) (node : Node P) (config : RunConfig A) (loaded : List A) (start : Nat)
    (answer : Except String (List PeerInfo)) (polls : A → Nat × Except String PeerPoll)
    {acts : List (Act P A)} {x : Process P A n}
    (hrun : (Process.opened parse json (some path) host node config loaded start answer
      polls).run parse json (some path) acts = some x) :
    (∃ past y, past <+: acts ∧ (Process.opened parse json (some path) host node config loaded start
        answer polls).run parse json (some path) past = some y ∧
      loadPeersFile x.host json path = .ok y.service.peers.keys) ∧
    (x.owes = [] →
      loadPeersFile x.host json path = .ok x.service.peers.keys ∧
      (((dedupePeers config.peers).filter (· ∉ x.service.peers.keys)).length ≤
          config.maxPeers - x.service.peers.size →
        ∀ (node : Node P) (now : Nat) (addr : A),
          addr ∈ (NodeService.new node (startPeers config x.service.peers.keys) now).peers.keys ↔
            addr ∈ config.peers ∨ addr ∈ x.service.peers.keys)) := by
  -- the write at the end of `preflight`
  obtain ⟨written, hopened, hload⟩ := Process.saved_eq json path
    ⟨(NodeService.new node (startPeers config loaded) start).preflightPeers parse start answer
      polls, host, []⟩
  rw [← Process.opened] at hopened
  have hlisted : (Process.opened parse json (some path) host node config loaded start answer
      polls).Listed json path := by
    rw [hopened]
    exact hload
  refine ⟨Process.run_listed hlisted hrun, fun hidle => ?_⟩
  have hfile : x.Listed json path := by
    rcases Process.Tracked.run (.inr hlisted) hrun with howes | hfile
    · exact absurd hidle howes
    · exact hfile
  refine ⟨hfile, fun hroom node now addr => ?_⟩
  have hnew : WellKept (startPeers config loaded) (fun _ => True) start
      (NodeService.new node (startPeers config loaded) start).peers :=
    NodeService.new_wellKept node (startPeers_length config loaded) (Nat.le_refl start)
  have hsize : x.service.peers.size ≤ (startPeers config loaded).maxPeers := by
    refine Process.run_size_le ?_ ?_ hrun
    · rw [hopened]
      exact NodeService.preflightPeers_config answer polls
    · rw [hopened]
      exact NodeService.size_preflightPeers_le answer polls hnew.size
  rw [NodeService.mem_keys_new, mem_startPeers_of_room]
  rw [Std.ExtTreeMap.length_keys]
  have hlimit : (startPeers config loaded).maxPeers = config.maxPeers := rfl
  omega

end Restart

end Service

namespace Reference

/-- A node that is configured with one peer. -/
def onePeer : Service.RunConfig Bool where
  mine := false
  peers := [false]
  gatewayUrl := none
  publicAddrs := []
  listenAddrs := []
  maxPeers := 8

/-- The process with that peer, which does not answer. -/
def onePeerProcess : Service.Process paqus Bool 2 :=
  Service.Process.opened (fun text => (host.parseAddr text).toOption) cacheJson (some "peers.json")
    host genesisNode onePeer [] 0 (.error "no gateway") fun _ => (0, .error "connect failed")

/-- A connection tells of another peer; before its thread has written the file,
the main loop polls the first. -/
def toldActs : List (Service.Act paqus Bool) :=
  [.event (.stream 0) 10 (.peers [⟨"0.0.0.0:5555"⟩]),
    .event .main 11 (.poll false (.ok (.idle 0))), .save (.stream 0)]

theorem toldActs_run : (onePeerProcess.run (fun text => (host.parseAddr text).toOption) cacheJson
    (some "peers.json") toldActs).isSome = true := by decide +kernel

def toldProcess : Service.Process paqus Bool 2 :=
  (onePeerProcess.run (fun text => (host.parseAddr text).toOption) cacheJson (some "peers.json")
    toldActs).get toldActs_run

end Reference

/-- The file then lists both peers, and both are there after a restart. -/
theorem Service.peers_survive_restart_of_told :
    Service.loadPeersFile Reference.toldProcess.host Reference.cacheJson "peers.json" =
        .ok [false, true] ∧
      ∀ addr, addr ∈ (Service.NodeService.new Reference.genesisNode (Service.startPeers
        Reference.onePeer Reference.toldProcess.service.peers.keys) 100).peers.keys ↔
          addr ∈ [false] ∨ addr ∈ Reference.toldProcess.service.peers.keys := by
  have hkeys : Reference.toldProcess.service.peers.keys = [false, true] := by decide +kernel
  obtain ⟨hload, hstart⟩ := (Service.peers_survive_restart _ Reference.cacheJson "peers.json"
    Reference.host Reference.genesisNode Reference.onePeer [] 0 (.error "no gateway")
    (fun _ => (0, .error "connect failed")) (Option.some_get Reference.toldActs_run).symm).2
    (by decide +kernel)
  exact ⟨hkeys ▸ hload, hstart (by decide +kernel) _ _⟩

end PaqusNode
