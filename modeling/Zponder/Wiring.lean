import Zponder.Lib.Checked
import Zponder.Text

/-!
# Who feeds whom

What `validate` makes of the factories and templates of a configuration, and what is made of
those it accepts when the program starts. A factory takes the addresses of new contracts from
the events of a source, which is a contract with its address or a template with its name, and
hands them to a template or to indexers of its own.

The two do not look at a configuration in the same way. `validate` asks whether a factory has an
address, not whether there is a contract at it; `associateFactorySources` compares addresses as
they are written, and `hasDuplicateFactoryAddress` does not. Templates and factories are on the
first of the chains, and a contract is where it wants to be. And templates may take their addresses
from each other. What is connected is connected under these conditions only
(`Zponder.Wiring.connected_iff`).
-/

namespace Zponder

namespace Wiring

/-! ### The configuration -/

/-- `ContractConfig`, as far as it is asked for. -/
structure ContractConfig where
  name : Text
  address : Text
  abiPath : Text
  events : List Text
  chain : Text := []
  deriving DecidableEq, Repr

/-- `FactoryConfig` -/
structure FactoryConfig where
  name : Text
  address : Text := []
  creationEvent : Text
  childAddressField : Text
  childAbiPath : Text := []
  maxChildren : Nat
  templateName : Text := []
  fromTemplate : Text := []
  deriving DecidableEq, Repr

/-- `TemplateConfig` -/
structure TemplateConfig where
  name : Text
  abiPath : Text
  abiAddress : Text := []
  events : List Text
  factoryName : Text
  deriving DecidableEq, Repr

/-- `ChainConfig` -/
structure ChainConfig where
  name : Text
  rpcUrl : Text
  deriving DecidableEq, Repr

/-- `QueryConfig` -/
structure QueryConfig where
  name : Text
  path : Text
  sql : Text
  deriving DecidableEq, Repr

/-- `Config`. There is a chain: `load` adds one where none is given. -/
structure Config where
  graphqlEnabled : Bool := false
  graphqlHost : Text := []
  graphqlPort : Nat := 0
  rpcUrl : Text
  wsUrl : Option Text := none
  wsUrls : List Text := []
  dbName : Text
  etherscanApiKey : Text := []
  chains : List ChainConfig
  contracts : List ContractConfig := []
  queries : List QueryConfig := []
  factories : List FactoryConfig := []
  templates : List TemplateConfig := []
  chains_ne : chains ≠ []

/-! ### What is accepted -/

/-- `isWsScheme` -/
def isWsScheme (url : Text) : Bool :=
  "ws://".toList.isPrefixOf url || "wss://".toList.isPrefixOf url

/-- `trim`, of a line of the configuration. -/
def trim (s : Text) : Text :=
  let blank := fun c : Char => c == ' ' || c == '\t' || c == '\r'
  ((s.dropWhile blank).reverse.dropWhile blank).reverse

/-- `hasTemplateNamed` -/
def hasTemplateNamed (cfg : Config) (name : Text) : Bool := cfg.templates.any (·.name == name)

/-- `findFactoryByName`: the first. -/
def findFactoryByName (cfg : Config) (name : Text) : Option FactoryConfig :=
  cfg.factories.find? (·.name == name)

/-- `hasDuplicateFactoryAddress`, with the factories before. -/
def hasDuplicateFactoryAddress (earlier : List FactoryConfig) (f : FactoryConfig) : Bool :=
  f.address != [] && earlier.any fun prev =>
    prev.address != [] && Text.eqlIgnoreCase prev.address f.address

/-- No error in a chain. -/
def chainOk (earlier : List ChainConfig) (ch : ChainConfig) : Bool :=
  ch.name != [] && !(earlier.any (·.name == ch.name)) && ch.rpcUrl != []

/-- No error in a contract. -/
def contractOk (cfg : Config) (c : ContractConfig) : Bool :=
  c.name != [] && (c.chain == [] || cfg.chains.any (·.name == c.chain)) && c.address != [] &&
    !(c.abiPath == [] && cfg.etherscanApiKey == [])

/-- No error in a query. -/
def queryOk (q : QueryConfig) : Bool :=
  q.name != [] && q.path != [] && q.sql != [] &&
    Text.eqlIgnoreCase ((trim q.sql).take 6) "select".toList

/-- The place a factory takes addresses from is one, and it is there if it is a template. -/
def sourceOk (cfg : Config) (earlier : List FactoryConfig) (f : FactoryConfig) : Bool :=
  if f.address != [] && f.fromTemplate != [] then false
  else if f.address == [] && f.fromTemplate == [] then false
  else if f.address != [] then !hasDuplicateFactoryAddress earlier f
  else hasTemplateNamed cfg f.fromTemplate

/-- What it hands them to is one, and it is there if it is a template. -/
def targetOk (cfg : Config) (f : FactoryConfig) : Bool :=
  if f.childAbiPath != [] && f.templateName != [] then false
  else if f.templateName != [] then hasTemplateNamed cfg f.templateName
  else f.childAbiPath != []

/-- No error in a factory. -/
def factoryOk (cfg : Config) (earlier : List FactoryConfig) (f : FactoryConfig) : Bool :=
  f.name != [] && sourceOk cfg earlier f &&
    (f.fromTemplate == [] ||
      f.childAbiPath == [] && f.templateName != [] && f.fromTemplate != f.templateName) &&
    f.creationEvent != [] && f.childAddressField != [] && targetOk cfg f && f.maxChildren ≥ 1

/-- No error in a template. -/
def templateOk (cfg : Config) (earlier : List TemplateConfig) (t : TemplateConfig) : Bool :=
  t.name != [] && !(earlier.any fun prev => prev.name != [] && prev.name == t.name) &&
    !(t.abiPath == [] && (t.abiAddress == [] || cfg.etherscanApiKey == [])) &&
    !(cfg.contracts.any (·.name == t.name)) && t.factoryName != [] &&
    match findFactoryByName cfg t.factoryName with
    | none => false
    | some f => f.templateName == t.name

/-- Every element passes, beside those before it. -/
def allWithEarlier {α : Type} (ok : List α → α → Bool) (earlier : List α) : List α → Bool
  | [] => true
  | x :: xs => ok earlier x && allWithEarlier ok (earlier ++ [x]) xs

/-- `validate`: no check fails. -/
def validate (cfg : Config) : Bool :=
  (!cfg.graphqlEnabled || cfg.graphqlPort != 0 && cfg.graphqlHost != []) &&
    cfg.rpcUrl != [] && cfg.wsUrl.all isWsScheme && cfg.wsUrls.all isWsScheme &&
    allWithEarlier chainOk [] cfg.chains && cfg.dbName != [] &&
    (cfg.contracts != [] || cfg.factories != [] || cfg.templates != []) &&
    cfg.contracts.all (contractOk cfg) && cfg.queries.all queryOk &&
    allWithEarlier (factoryOk cfg) [] cfg.factories &&
    allWithEarlier (templateOk cfg) [] cfg.templates

/-! ### The start -/

/-- `chain_clients.indexOf`: no name stands for the first chain. -/
def indexOf (chains : List ChainConfig) (name : Text) : Option Nat :=
  if chains = [] then none
  else if name = [] then some 0
  else chains.findIdx? (·.name == name)

/-- `chain_clients.resolvedName` -/
def resolvedName (chains : List ChainConfig) (name : Text) : Option Text :=
  (indexOf chains name).bind fun i => chains[i]?.map (·.name)

/-- The events in the ABI of a contract or a template, where it can be read. -/
structure Abis where
  contract : ContractConfig → List Text
  template : TemplateConfig → List Text

/-- An indexer that is set up: by its contract, which is made up for a template, with the number of
its RPC client and the name of its chain. -/
structure Indexer where
  name : Text
  address : Text
  events : List Text
  abi : List Text
  rpc : Nat
  chain : Text
  deriving DecidableEq, Repr

/-- `buildEventTopics`, by name. -/
def eventTopics (events abi : List Text) : List Text := events.filter fun e => abi.contains e

/-- A request without topics is one for all logs. -/
def asksFor (events abi : List Text) (event : Text) : Bool :=
  eventTopics events abi == [] || (eventTopics events abi).contains event

section Start

variable (abis : Abis) (cfg : Config)

/-- `resolveEvents`: without a list of events it is those of the ABI. -/
def resolvedEvents (c : ContractConfig) : List Text :=
  if c.events = [] then abis.contract c else c.events

/-- The indexer of a contract. -/
def contractIndexer (c : ContractConfig) : Option Indexer := do
  let rpc ← indexOf cfg.chains c.chain
  let chain ← resolvedName cfg.chains c.chain
  some ⟨c.name, c.address, resolvedEvents abis c, abis.contract c, rpc, chain⟩

/-- The indexer of a template. -/
def templateIndexer (t : TemplateConfig) : Option Indexer := do
  let rpc ← indexOf cfg.chains []
  let chain ← resolvedName cfg.chains []
  some ⟨t.name, [], t.events, abis.template t, rpc, chain⟩

/-- The indexers, those of the contracts first. -/
def indexers : Option (List Indexer) := do
  let contracts ← cfg.contracts.mapM (contractIndexer abis cfg)
  let templates ← cfg.templates.mapM (templateIndexer abis cfg)
  some (contracts ++ templates)

/-- The client and the chain of the `FactoryManager`, which are those of its children. -/
def factoryManager : Option (Nat × Text) := do
  let rpc ← indexOf cfg.chains []
  let chain ← resolvedName cfg.chains []
  some (rpc, chain)

end Start

/-- What `associateFactorySources` compares. -/
def isSource (f : FactoryConfig) (idx : Indexer) : Bool :=
  if f.fromTemplate != [] then f.fromTemplate == idx.name else f.address == idx.address

/-- `associateFactorySources`: the numbers of the factories that are attached to an indexer. -/
def factoryIdxs (factories : List FactoryConfig) (idx : Indexer) : List Nat :=
  (List.range factories.length).filter fun fi => factories[fi]?.any (isSource · idx)

/-! ### What has to be connected -/

section Connected

variable (factories : List FactoryConfig) (idxs : List Indexer) (manager : Nat × Text)

/-- Client and chain of what gets the addresses. -/
def targets (f : FactoryConfig) : List (Nat × Text) :=
  if f.templateName != [] then
    (idxs.filter (·.name == f.templateName)).map fun idx => (idx.rpc, idx.chain)
  else [manager]

/-- **An indexer that may come to index something**: it has an address from the start, or there is
one that does and asks for the events it gets addresses from. -/
inductive Indexes : Indexer → Prop
  | contract {idx : Indexer} : idx ∈ idxs → idx.address ≠ [] → Indexes idx
  | template {idx source : Indexer} {f : FactoryConfig} : idx ∈ idxs → f ∈ factories →
      f.templateName = idx.name → source ∈ idxs → isSource f source = true →
      asksFor source.events source.abi f.creationEvent = true → Indexes source → Indexes idx

/-- **Everything is connected.** -/
structure ConnectedOf (templates : List TemplateConfig) : Prop where
  /-- A factory is attached to an indexer that asks for its events. -/
  attached : ∀ fi f, factories[fi]? = some f → ∃ idx ∈ idxs, fi ∈ factoryIdxs factories idx ∧
    asksFor idx.events idx.abi f.creationEvent = true
  /-- A template gets its addresses from a factory that is attached. -/
  fed : ∀ t ∈ templates, ∃ fi f, factories[fi]? = some f ∧ f.templateName = t.name ∧
    ∃ idx ∈ idxs, fi ∈ factoryIdxs factories idx
  /-- The source is on the chain of what it feeds, and so is the client. -/
  sameChain : ∀ fi f, factories[fi]? = some f → ∀ idx ∈ idxs, fi ∈ factoryIdxs factories idx →
    ∀ target ∈ targets idxs manager f, (idx.rpc, idx.chain) = target
  /-- No indexer, and no factory, is without hope. -/
  indexes : ∀ idx ∈ idxs, Indexes factories idxs idx
  discovers : ∀ fi f, factories[fi]? = some f → ∃ idx ∈ idxs, fi ∈ factoryIdxs factories idx ∧
    asksFor idx.events idx.abi f.creationEvent = true ∧ Indexes factories idxs idx

end Connected

/-- **What the program has to be when it is started.** -/
def Connected (abis : Abis) (cfg : Config) : Prop :=
  ∃ idxs manager, indexers abis cfg = some idxs ∧ factoryManager cfg = some manager ∧
    ConnectedOf cfg.factories idxs manager cfg.templates

/-- **What a configuration has to be for that**, beside being accepted. The address of a
factory is written as that of a contract, which asks for its events; all contracts at it
are on the first chain; a template that is a source asks for the events too; and of any templates
one gets addresses from an address or from a template that is not among them. -/
structure Wired (abis : Abis) (cfg : Config) : Prop where
  contract : ∀ f ∈ cfg.factories, f.address ≠ [] → ∃ c ∈ cfg.contracts, c.address = f.address ∧
    asksFor (resolvedEvents abis c) (abis.contract c) f.creationEvent = true
  chain : ∀ f ∈ cfg.factories, f.address ≠ [] → ∀ c ∈ cfg.contracts, c.address = f.address →
    c.chain = [] ∨ c.chain = (cfg.chains.head cfg.chains_ne).name
  template : ∀ f ∈ cfg.factories, f.fromTemplate ≠ [] → ∃ t ∈ cfg.templates,
    t.name = f.fromTemplate ∧ asksFor t.events (abis.template t) f.creationEvent = true
  seeded : ∀ S : Text → Prop, (∃ t ∈ cfg.templates, S t.name) →
    ∃ t ∈ cfg.templates, S t.name ∧ ∃ f ∈ cfg.factories, f.templateName = t.name ∧
      (f.address ≠ [] ∨ ¬S f.fromTemplate)

/-! ### What is known of an accepted configuration -/

section Accepted

variable {abis : Abis} {cfg : Config} {f : FactoryConfig} {t : TemplateConfig}
  {c : ContractConfig} {idx : Indexer} {fi : Nat}

theorem exists_ok_of_mem {α : Type} {ok : List α → α → Bool} {earlier xs : List α}
    (h : allWithEarlier ok earlier xs = true) {x : α} (hx : x ∈ xs) :
    ∃ earlier, ok earlier x = true := by
  induction xs generalizing earlier with
  | nil => cases hx
  | cons y xs ih =>
    rw [allWithEarlier, Bool.and_eq_true] at h
    rcases List.mem_cons.1 hx with rfl | hx
    · exact ⟨earlier, h.1⟩
    · exact ih h.2 hx

/-- What the checks of an accepted configuration come to. -/
structure Accepted (cfg : Config) : Prop where
  known : ∀ c ∈ cfg.contracts, c.chain = [] ∨ ∃ ch ∈ cfg.chains, ch.name = c.chain
  address : ∀ c ∈ cfg.contracts, c.address ≠ []
  chainName : ∀ ch ∈ cfg.chains, ch.name ≠ []
  /-- A factory has one source. -/
  source : ∀ f ∈ cfg.factories, f.address ≠ [] ∧ f.fromTemplate = [] ∨
    f.address = [] ∧ f.fromTemplate ≠ [] ∧ ∃ t ∈ cfg.templates, t.name = f.fromTemplate
  target : ∀ f ∈ cfg.factories, f.templateName ≠ [] → ∃ t ∈ cfg.templates, t.name = f.templateName
  /-- A factory that is fed by a template feeds one. -/
  feeds : ∀ f ∈ cfg.factories, f.fromTemplate ≠ [] → f.templateName ≠ []
  templateName : ∀ t ∈ cfg.templates, t.name ≠ [] ∧ ∀ c ∈ cfg.contracts, c.name ≠ t.name
  /-- The factory of a template feeds it. -/
  factory : ∀ t ∈ cfg.templates, ∃ f ∈ cfg.factories, f.templateName = t.name

theorem accepted_of_validate (h : validate cfg = true) : Accepted cfg := by
  simp only [validate, Bool.and_eq_true] at h
  obtain ⟨⟨⟨⟨⟨⟨⟨-, hchains⟩, -⟩, -⟩, hcontracts⟩, -⟩, hfactories⟩, htemplates⟩ := h
  have hcontract : ∀ c ∈ cfg.contracts, contractOk cfg c = true := List.all_eq_true.1 hcontracts
  have hfactory : ∀ f ∈ cfg.factories, ∃ earlier, factoryOk cfg earlier f = true :=
    fun f hf => exists_ok_of_mem hfactories hf
  have htemplate : ∀ t ∈ cfg.templates, ∃ earlier, templateOk cfg earlier t = true :=
    fun t ht => exists_ok_of_mem htemplates ht
  refine ⟨?_, ?_, ?_, ?_, ?_, ?_, ?_, ?_⟩
  · intro c hc
    have hok := hcontract c hc
    simp only [contractOk, Bool.and_eq_true, Bool.or_eq_true, beq_iff_eq, List.any_eq_true] at hok
    exact hok.1.1.2
  · intro c hc
    have hok := hcontract c hc
    simp only [contractOk, Bool.and_eq_true, bne_iff_ne] at hok
    exact hok.1.2
  · intro ch hch
    obtain ⟨earlier, hok⟩ := exists_ok_of_mem hchains hch
    simp only [chainOk, Bool.and_eq_true, bne_iff_ne] at hok
    exact hok.1.1
  · intro f hf
    obtain ⟨earlier, hok⟩ := hfactory f hf
    simp only [factoryOk, Bool.and_eq_true] at hok
    have hsource := hok.1.1.1.1.1.2
    unfold sourceOk at hsource
    split at hsource
    · cases hsource
    · next hboth =>
      split at hsource
      · cases hsource
      · next hnone =>
        simp only [Bool.and_eq_true, bne_iff_ne, not_and, not_not] at hboth
        split at hsource
        · next haddress =>
          rw [bne_iff_ne] at haddress
          exact .inl ⟨haddress, hboth haddress⟩
        · next haddress =>
          rw [bne_iff_ne, not_not] at haddress
          simp only [Bool.and_eq_true, beq_iff_eq, not_and] at hnone
          simp only [hasTemplateNamed, List.any_eq_true, beq_iff_eq] at hsource
          exact .inr ⟨haddress, hnone haddress, hsource⟩
  · intro f hf hname
    obtain ⟨earlier, hok⟩ := hfactory f hf
    simp only [factoryOk, Bool.and_eq_true] at hok
    have htarget := hok.1.2
    unfold targetOk at htarget
    split at htarget
    · cases htarget
    · rw [if_pos (bne_iff_ne.2 hname)] at htarget
      simpa only [hasTemplateNamed, List.any_eq_true, beq_iff_eq] using htarget
  · intro f hf hfrom
    obtain ⟨earlier, hok⟩ := hfactory f hf
    simp only [factoryOk, Bool.and_eq_true, Bool.or_eq_true, beq_iff_eq, bne_iff_ne] at hok
    rcases hok.1.1.1.1.2 with hnone | hfeeds
    · exact absurd hnone hfrom
    · exact hfeeds.1.2
  · intro t ht
    obtain ⟨earlier, hok⟩ := htemplate t ht
    simp only [templateOk, Bool.and_eq_true, bne_iff_ne] at hok
    refine ⟨hok.1.1.1.1.1, fun c hc heq => ?_⟩
    have hclash := hok.1.1.2
    rw [Bool.not_eq_true', List.any_eq_false] at hclash
    exact hclash c hc (beq_iff_eq.2 heq)
  · intro t ht
    obtain ⟨earlier, hok⟩ := htemplate t ht
    simp only [templateOk, Bool.and_eq_true] at hok
    have hfound := hok.2
    cases hf : findFactoryByName cfg t.factoryName with
    | none =>
      rw [hf] at hfound
      cases hfound
    | some f =>
      rw [hf] at hfound
      exact ⟨f, List.mem_of_find?_eq_some hf, beq_iff_eq.1 hfound⟩

/-! ### What the start makes of it -/

/-- The first chain. -/
def Config.first (cfg : Config) : ChainConfig := cfg.chains.head cfg.chains_ne

theorem indexOf_nil (cfg : Config) : indexOf cfg.chains [] = some 0 := by
  rw [indexOf, if_neg cfg.chains_ne, if_pos rfl]

theorem getElem?_zero (cfg : Config) : cfg.chains[0]? = some cfg.first := by
  rw [← List.head?_eq_getElem?, List.head?_eq_some_head cfg.chains_ne]
  rfl

theorem resolvedName_nil (cfg : Config) : resolvedName cfg.chains [] = some cfg.first.name := by
  rw [resolvedName, indexOf_nil, Option.bind_some, getElem?_zero]
  rfl

theorem factoryManager_eq (cfg : Config) : factoryManager cfg = some (0, cfg.first.name) := by
  rw [factoryManager, indexOf_nil, resolvedName_nil]
  rfl

theorem templateIndexer_eq (abis : Abis) (cfg : Config) (t : TemplateConfig) :
    templateIndexer abis cfg t =
      some ⟨t.name, [], t.events, abis.template t, 0, cfg.first.name⟩ := by
  rw [templateIndexer, indexOf_nil, resolvedName_nil]
  rfl

/-- The indexer of a contract is on the chain the contract names. -/
theorem contractIndexer_eq (abis : Abis) (h : Accepted cfg) (hc : c ∈ cfg.contracts) :
    ∃ rpc ch, contractIndexer abis cfg c =
      some ⟨c.name, c.address, resolvedEvents abis c, abis.contract c, rpc, ch⟩ ∧
        ((rpc, ch) = (0, cfg.first.name) ↔ c.chain = [] ∨ c.chain = cfg.first.name) := by
  rcases h.known c hc with hnil | ⟨ch, hch, hname⟩
  · refine ⟨0, cfg.first.name, ?_, iff_of_true rfl (.inl hnil)⟩
    rw [contractIndexer, hnil, indexOf_nil, resolvedName_nil]
    rfl
  · have hne : c.chain ≠ [] := hname ▸ h.chainName ch hch
    have hfound : (cfg.chains.findIdx? (·.name == c.chain)).isSome = true := by
      rw [List.findIdx?_isSome, List.any_eq_true]
      exact ⟨ch, hch, beq_iff_eq.2 hname⟩
    obtain ⟨i, hi⟩ := Option.isSome_iff_exists.1 hfound
    have hindex : indexOf cfg.chains c.chain = some i := by
      rw [indexOf, if_neg cfg.chains_ne, if_neg hne, hi]
    obtain ⟨hlt, hat, hbefore⟩ := List.findIdx?_eq_some_iff_getElem.1 hi
    have hresolved : resolvedName cfg.chains c.chain = some c.chain := by
      rw [resolvedName, hindex, Option.bind_some, List.getElem?_eq_getElem hlt, Option.map_some,
        beq_iff_eq.1 hat]
    refine ⟨i, c.chain, ?_, ?_⟩
    · rw [contractIndexer, hindex, hresolved]
      rfl
    · rw [Prod.mk.injEq]
      constructor
      · exact fun heq => .inr heq.2
      · rintro (hnil | hfirst)
        · exact absurd hnil hne
        · refine ⟨?_, hfirst⟩
          by_contra hi0
          have hzero := hbefore 0 (Nat.pos_of_ne_zero hi0)
          have hget := getElem?_zero cfg
          rw [List.getElem?_eq_getElem (Nat.zero_lt_of_lt hlt), Option.some.injEq] at hget
          rw [hget, hfirst] at hzero
          exact hzero (beq_self_eq_true _)

/-- **An accepted configuration is set up**: with an indexer for each contract and for each
template. -/
theorem exists_indexers (abis : Abis) (h : Accepted cfg) : ∃ idxs, indexers abis cfg = some idxs ∧
    ∀ idx, idx ∈ idxs ↔ (∃ c ∈ cfg.contracts, contractIndexer abis cfg c = some idx) ∨
      ∃ t ∈ cfg.templates, templateIndexer abis cfg t = some idx := by
  have hcontracts : cfg.contracts.mapM (contractIndexer abis cfg) = some (cfg.contracts.map fun c =>
      (contractIndexer abis cfg c).getD ⟨[], [], [], [], 0, []⟩) := by
    refine Checked.mapM_eq_some fun c hc => ?_
    obtain ⟨rpc, ch, heq, -⟩ := contractIndexer_eq abis h hc
    rw [heq]
    rfl
  have htemplates : cfg.templates.mapM (templateIndexer abis cfg) = some (cfg.templates.map fun t =>
      ⟨t.name, [], t.events, abis.template t, 0, cfg.first.name⟩) :=
    Checked.mapM_eq_some fun t _ => templateIndexer_eq abis cfg t
  refine ⟨_, by rw [indexers, hcontracts, htemplates]; rfl, fun idx => ?_⟩
  rw [List.mem_append, Checked.mem_mapM hcontracts, Checked.mem_mapM htemplates]

theorem mem_factoryIdxs {factories : List FactoryConfig} (hf : factories[fi]? = some f) :
    fi ∈ factoryIdxs factories idx ↔ isSource f idx = true := by
  have hlt : fi < factories.length := (List.getElem?_eq_some_iff.1 hf).1
  rw [factoryIdxs, List.mem_filter, List.mem_range, hf]
  simp [hlt]

end Accepted

/-! ### When it is connected -/

section Iff

variable {abis : Abis} {cfg : Config} {idxs : List Indexer} {f : FactoryConfig}
  {t : TemplateConfig} {c : ContractConfig} {idx : Indexer}

/-- The indexers of an accepted configuration, told apart. -/
structure Started (abis : Abis) (cfg : Config) (idxs : List Indexer) : Prop
    extends Accepted cfg where
  mem : ∀ idx, idx ∈ idxs ↔ (∃ c ∈ cfg.contracts, contractIndexer abis cfg c = some idx) ∨
    ∃ t ∈ cfg.templates, templateIndexer abis cfg t = some idx

/-- The source of a factory with an address. -/
theorem Started.isSource_address (h : Started abis cfg idxs) (hf : f ∈ cfg.factories)
    (haddress : f.address ≠ []) (hidx : idx ∈ idxs) : isSource f idx = true ↔
      ∃ c ∈ cfg.contracts, contractIndexer abis cfg c = some idx ∧ c.address = f.address := by
  have hfrom : f.fromTemplate = [] := by
    rcases h.source f hf with hs | hs
    · exact hs.2
    · exact absurd hs.1 haddress
  rw [isSource, if_neg (by simp [hfrom]), beq_iff_eq]
  rcases (h.mem idx).1 hidx with ⟨c, hc, hci⟩ | ⟨t, ht, hti⟩
  · obtain ⟨rpc, ch, heq, -⟩ := contractIndexer_eq abis h.toAccepted hc
    obtain rfl := Option.some.inj (heq.symm.trans hci)
    constructor
    · exact fun hsame => ⟨c, hc, hci, hsame.symm⟩
    · rintro ⟨c', hc', hci', haddr⟩
      obtain ⟨rpc', ch', heq', -⟩ := contractIndexer_eq abis h.toAccepted hc'
      have hsame := Option.some.inj (heq'.symm.trans hci')
      exact haddr.symm.trans (congrArg Indexer.address hsame)
  · rw [templateIndexer_eq] at hti
    obtain rfl := Option.some.inj hti
    refine iff_of_false haddress ?_
    rintro ⟨c, hc, hci, -⟩
    obtain ⟨rpc, ch, heq, -⟩ := contractIndexer_eq abis h.toAccepted hc
    have hsame := Option.some.inj (heq.symm.trans hci)
    exact h.address c hc (congrArg Indexer.address hsame)

/-- The indexer with the name of a template is that of the template. -/
theorem Started.eq_of_name_eq (h : Started abis cfg idxs) (ht : t ∈ cfg.templates)
    (hidx : idx ∈ idxs) (hname : idx.name = t.name) :
    ∃ t' ∈ cfg.templates, t'.name = t.name ∧ templateIndexer abis cfg t' = some idx := by
  rcases (h.mem idx).1 hidx with ⟨c, hc, hci⟩ | ⟨t', ht', hti⟩
  · obtain ⟨rpc, ch, heq, -⟩ := contractIndexer_eq abis h.toAccepted hc
    obtain rfl := Option.some.inj (heq.symm.trans hci)
    exact absurd hname ((h.templateName t ht).2 c hc)
  · refine ⟨t', ht', ?_, hti⟩
    rw [templateIndexer_eq] at hti
    obtain rfl := Option.some.inj hti
    exact hname

/-- The source of a factory that is fed by a template. -/
theorem isSource_template (hfrom : f.fromTemplate ≠ []) :
    isSource f idx = true ↔ f.fromTemplate = idx.name := by
  rw [isSource, if_pos (bne_iff_ne.2 hfrom), beq_iff_eq]

/-- What gets the addresses is on the first chain. -/
theorem Started.target_eq (h : Started abis cfg idxs) (hf : f ∈ cfg.factories)
    {target : Nat × Text} (ht : target ∈ targets idxs (0, cfg.first.name) f) :
    target = (0, cfg.first.name) := by
  unfold targets at ht
  split at ht
  · next hname =>
    rw [bne_iff_ne] at hname
    obtain ⟨idx, hidx, rfl⟩ := List.mem_map.1 ht
    rw [List.mem_filter, beq_iff_eq] at hidx
    obtain ⟨t, ht, htn⟩ := h.target f hf hname
    obtain ⟨t', -, -, hti⟩ := h.eq_of_name_eq ht hidx.1 (hidx.2.trans htn.symm)
    rw [templateIndexer_eq] at hti
    obtain rfl := Option.some.inj hti
    rfl
  · exact List.mem_singleton.1 ht

/-- Something does get them. -/
theorem Started.target_mem (h : Started abis cfg idxs) (hf : f ∈ cfg.factories) :
    (0, cfg.first.name) ∈ targets idxs (0, cfg.first.name) f := by
  unfold targets
  split
  · next hname =>
    rw [bne_iff_ne] at hname
    obtain ⟨t, ht, htn⟩ := h.target f hf hname
    have hti := templateIndexer_eq abis cfg t
    have hidx := (h.mem _).2 (.inr ⟨t, ht, hti⟩)
    exact List.mem_map.2 ⟨_, List.mem_filter.2 ⟨hidx, beq_iff_eq.2 htn⟩, rfl⟩
  · exact List.mem_singleton_self _

/-- A template in a set that feeds itself comes to nothing. -/
theorem Started.not_indexes (h : Started abis cfg idxs) {S : Text → Prop}
    (hclosed : ∀ t ∈ cfg.templates, S t.name → ∀ f ∈ cfg.factories, f.templateName = t.name →
      f.address = [] ∧ S f.fromTemplate) (hidx : Indexes cfg.factories idxs idx)
    (ht : t ∈ cfg.templates) (hname : idx.name = t.name) (hS : S t.name) : False := by
  induction hidx generalizing t with
  | contract hmem haddress =>
    obtain ⟨t', -, -, hti⟩ := h.eq_of_name_eq ht hmem hname
    rw [templateIndexer_eq] at hti
    exact haddress (congrArg Indexer.address (Option.some.inj hti)).symm
  | template hmem hf hfeeds hsource his _ _ ih =>
    obtain ⟨haddress, hfrom⟩ := hclosed t ht hS _ hf (hfeeds.trans hname)
    rcases h.source _ hf with hs | ⟨-, hne, t', ht', htn⟩
    · exact hs.1 haddress
    · exact ih ht' (((isSource_template hne).1 his).symm.trans htn.symm) (htn ▸ hfrom)

theorem Started.wired (h : Started abis cfg idxs)
    (hc : ConnectedOf cfg.factories idxs (0, cfg.first.name) cfg.templates) : Wired abis cfg := by
  refine ⟨fun f hf haddress => ?_, fun f hf haddress c hcmem hsame => ?_, fun f hf hfrom => ?_,
    fun S hS => ?_⟩
  · obtain ⟨fi, hfi⟩ := List.mem_iff_getElem?.1 hf
    obtain ⟨idx, hidx, hattached, hasks⟩ := hc.attached fi f hfi
    obtain ⟨c, hcmem, hci, hsame⟩ :=
      (h.isSource_address hf haddress hidx).1 ((mem_factoryIdxs hfi).1 hattached)
    obtain ⟨rpc, ch, heq, -⟩ := contractIndexer_eq abis h.toAccepted hcmem
    obtain rfl := Option.some.inj (heq.symm.trans hci)
    exact ⟨c, hcmem, hsame, hasks⟩
  · obtain ⟨fi, hfi⟩ := List.mem_iff_getElem?.1 hf
    obtain ⟨rpc, ch, heq, hchain⟩ := contractIndexer_eq abis h.toAccepted hcmem
    have hidx := (h.mem _).2 (.inl ⟨c, hcmem, heq⟩)
    have hsource := (h.isSource_address hf haddress hidx).2 ⟨c, hcmem, heq, hsame⟩
    exact hchain.1 (hc.sameChain fi f hfi _ hidx ((mem_factoryIdxs hfi).2 hsource) _
      (h.target_mem hf))
  · obtain ⟨fi, hfi⟩ := List.mem_iff_getElem?.1 hf
    obtain ⟨idx, hidx, hattached, hasks⟩ := hc.attached fi f hfi
    have hname := (isSource_template hfrom).1 ((mem_factoryIdxs hfi).1 hattached)
    rcases h.source f hf with hs | ⟨-, -, t, ht, htn⟩
    · exact absurd hs.2 hfrom
    · obtain ⟨t', ht', htn', hti⟩ := h.eq_of_name_eq ht hidx (hname.symm.trans htn.symm)
      rw [templateIndexer_eq] at hti
      obtain rfl := Option.some.inj hti
      exact ⟨t', ht', htn'.trans htn, hasks⟩
  · by_contra hnone
    push Not at hnone
    obtain ⟨t, ht, hS⟩ := hS
    have hidx := (h.mem _).2 (.inr ⟨t, ht, templateIndexer_eq abis cfg t⟩)
    exact h.not_indexes hnone (hc.indexes _ hidx) ht rfl hS

/-- A factory with an address has a source that indexes. -/
theorem Started.exists_contract (h : Started abis cfg idxs) (hw : Wired abis cfg)
    (hf : f ∈ cfg.factories) (haddress : f.address ≠ []) :
    ∃ idx ∈ idxs, isSource f idx = true ∧ asksFor idx.events idx.abi f.creationEvent = true ∧
      Indexes cfg.factories idxs idx := by
  obtain ⟨c, hc, hsame, hasks⟩ := hw.contract f hf haddress
  obtain ⟨rpc, ch, heq, -⟩ := contractIndexer_eq abis h.toAccepted hc
  have hidx := (h.mem _).2 (.inl ⟨c, hc, heq⟩)
  exact ⟨_, hidx, (h.isSource_address hf haddress hidx).2 ⟨c, hc, heq, hsame⟩, hasks,
    .contract hidx (h.address c hc)⟩

/-- A factory that is fed by a template has the template as its source. -/
theorem Started.exists_template (h : Started abis cfg idxs) (hw : Wired abis cfg)
    (hf : f ∈ cfg.factories) (hfrom : f.fromTemplate ≠ []) :
    ∃ idx ∈ idxs, isSource f idx = true ∧ asksFor idx.events idx.abi f.creationEvent = true ∧
      idx.name = f.fromTemplate := by
  obtain ⟨t, ht, hname, hasks⟩ := hw.template f hf hfrom
  have hidx := (h.mem _).2 (.inr ⟨t, ht, templateIndexer_eq abis cfg t⟩)
  exact ⟨_, hidx, (isSource_template hfrom).2 hname.symm, hasks, hname⟩

/-- **Every indexer comes to index something**: those that do not would be templates that get
addresses from each other only. -/
theorem Started.indexes (h : Started abis cfg idxs) (hw : Wired abis cfg) (hidx : idx ∈ idxs) :
    Indexes cfg.factories idxs idx := by
  by_contra hnot
  have htemplate : ∃ t ∈ cfg.templates, t.name = idx.name := by
    rcases (h.mem idx).1 hidx with ⟨c, hc, hci⟩ | ⟨t, ht, hti⟩
    · obtain ⟨rpc, ch, heq, -⟩ := contractIndexer_eq abis h.toAccepted hc
      obtain rfl := Option.some.inj (heq.symm.trans hci)
      exact absurd (.contract hidx (h.address c hc)) hnot
    · rw [templateIndexer_eq] at hti
      obtain rfl := Option.some.inj hti
      exact ⟨t, ht, rfl⟩
  obtain ⟨t₀, ht₀, hname₀⟩ := htemplate
  obtain ⟨t, ht, ⟨idx', hidx', hname, hnot'⟩, f, hf, hfeeds, hseed⟩ := hw.seeded
    (fun n => ∃ idx ∈ idxs, idx.name = n ∧ ¬Indexes cfg.factories idxs idx)
    ⟨t₀, ht₀, idx, hidx, hname₀.symm, hnot⟩
  by_cases haddress : f.address = []
  · rcases h.source f hf with hs | ⟨-, hfrom, -⟩
    · exact hs.1 haddress
    · obtain ⟨source, hsource, his, hasks, hsname⟩ := h.exists_template hw hf hfrom
      rcases hseed with hseed | hseed
      · exact hseed haddress
      · have hindexes : Indexes cfg.factories idxs source := by
          by_contra hn
          exact hseed ⟨source, hsource, hsname, hn⟩
        exact hnot' (.template hidx' hf (hfeeds.trans hname.symm) hsource his hasks hindexes)
  · obtain ⟨source, hsource, his, hasks, hindexes⟩ := h.exists_contract hw hf haddress
    exact hnot' (.template hidx' hf (hfeeds.trans hname.symm) hsource his hasks hindexes)

theorem Started.exists_source (h : Started abis cfg idxs) (hw : Wired abis cfg)
    (hf : f ∈ cfg.factories) :
    ∃ idx ∈ idxs, isSource f idx = true ∧ asksFor idx.events idx.abi f.creationEvent = true := by
  rcases h.source f hf with ⟨haddress, -⟩ | ⟨-, hfrom, -⟩
  · obtain ⟨idx, hidx, his, hasks, -⟩ := h.exists_contract hw hf haddress
    exact ⟨idx, hidx, his, hasks⟩
  · obtain ⟨idx, hidx, his, hasks, -⟩ := h.exists_template hw hf hfrom
    exact ⟨idx, hidx, his, hasks⟩

theorem Started.connectedOf (h : Started abis cfg idxs) (hw : Wired abis cfg) :
    ConnectedOf cfg.factories idxs (0, cfg.first.name) cfg.templates := by
  refine ⟨fun fi f hfi => ?_, fun t ht => ?_, fun fi f hfi idx hidx hattached target htarget => ?_,
    fun idx hidx => h.indexes hw hidx, fun fi f hfi => ?_⟩
  · obtain ⟨idx, hidx, his, hasks⟩ := h.exists_source hw (List.mem_of_getElem? hfi)
    exact ⟨idx, hidx, (mem_factoryIdxs hfi).2 his, hasks⟩
  · obtain ⟨f, hf, hname⟩ := h.factory t ht
    obtain ⟨fi, hfi⟩ := List.mem_iff_getElem?.1 hf
    obtain ⟨idx, hidx, his, -⟩ := h.exists_source hw hf
    exact ⟨fi, f, hfi, hname, idx, hidx, (mem_factoryIdxs hfi).2 his⟩
  · have hf := List.mem_of_getElem? hfi
    rw [h.target_eq hf htarget]
    rcases (h.mem idx).1 hidx with ⟨c, hc, hci⟩ | ⟨t, ht, hti⟩
    · obtain ⟨rpc, ch, heq, hchain⟩ := contractIndexer_eq abis h.toAccepted hc
      obtain rfl := Option.some.inj (heq.symm.trans hci)
      have his := (mem_factoryIdxs hfi).1 hattached
      refine hchain.2 ?_
      rcases h.source f hf with ⟨haddress, -⟩ | ⟨-, hfrom, t, ht, htn⟩
      · obtain ⟨c', hc', hci', hsame⟩ := (h.isSource_address hf haddress hidx).1 his
        obtain ⟨rpc', ch', heq', -⟩ := contractIndexer_eq abis h.toAccepted hc'
        have hindexer := Option.some.inj (heq'.symm.trans hci')
        exact hw.chain f hf haddress c hc ((congrArg Indexer.address hindexer).symm.trans hsame)
      · have hname := (isSource_template hfrom).1 his
        exact absurd (hname.symm.trans htn.symm) ((h.templateName t ht).2 c hc)
    · rw [templateIndexer_eq] at hti
      obtain rfl := Option.some.inj hti
      rfl
  · obtain ⟨idx, hidx, his, hasks⟩ := h.exists_source hw (List.mem_of_getElem? hfi)
    exact ⟨idx, hidx, (mem_factoryIdxs hfi).2 his, hasks, h.indexes hw hidx⟩

theorem exists_started (abis : Abis) (h : validate cfg = true) :
    ∃ idxs, indexers abis cfg = some idxs ∧ Started abis cfg idxs := by
  have haccepted := accepted_of_validate h
  obtain ⟨idxs, hidxs, hmem⟩ := exists_indexers abis haccepted
  exact ⟨idxs, hidxs, { toAccepted := haccepted, mem := hmem }⟩

theorem wired_of_connected (h : validate cfg = true) (hc : Connected abis cfg) :
    Wired abis cfg := by
  obtain ⟨idxs, hidxs, hstarted⟩ := exists_started abis h
  obtain ⟨idxs', manager, hidxs', hmanager, hconnected⟩ := hc
  obtain rfl := Option.some.inj (hidxs.symm.trans hidxs')
  obtain rfl := Option.some.inj ((factoryManager_eq cfg).symm.trans hmanager)
  exact hstarted.wired hconnected

end Iff

/-! ### A factory that is accepted and never attached -/

/-- The one chain. -/
def mainnet : ChainConfig := ⟨"ethereum".toList, "https://eth.example".toList⟩

/-- A contract, and a factory with an address. -/
def oneFactory (address : Text) : Config where
  rpcUrl := "https://eth.example".toList
  dbName := "zponder.db".toList
  chains := [mainnet]
  contracts := [⟨"launchpad".toList, "0xabcd".toList, "launchpad.abi".toList, [], []⟩]
  factories := [{
    name := "pools".toList, address := address, creationEvent := "Created".toList
    childAddressField := "pool".toList, childAbiPath := "pool.abi".toList, maxChildren := 100 }]
  chains_ne := by decide

/-- Every ABI has the event. -/
def createdAbis : Abis := ⟨fun _ => ["Created".toList], fun _ => ["Created".toList]⟩

end Wiring

end Zponder
