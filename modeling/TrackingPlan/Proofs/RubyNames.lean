import TrackingPlan.Calls.Ruby
import TrackingPlan.Proofs.Tables
import TrackingPlan.Proofs.Within
import TrackingPlan.Scope.RubyFiles

/-!
# Where Ruby files take event names from

An event name of a Ruby file is a literal text of the file, or the value of a constant. Tables of
constants hold nothing but literal texts of the files they are made of, which
`spells_of_mem_constants` says of one file and `spells_of_mem_directories` of an index;
`knows_of_mem_events` is the statement on the events of a file.
-/

namespace TrackingPlan

namespace Ruby

/-! ## Literals -/

/-- A file spells a text when that stands between the quotes of a literal in it. -/
abbrev Spells (root : Node) (text : String) : Prop :=
  root.Spells Node.IsPlainString (some ∘ Text.unquote) text

variable {root n : Node} {s : Site} {text : String}

/-- What is read off a literal, perhaps a frozen one, is spelled there. -/
theorem spells_of_literal (hn : root.Within n) (h : literal? n = some text) : Spells root text := by
  fun_induction literal? n with
  | case1 n hkind hembedded => cases h
  | case2 n hkind hplain =>
      cases h
      have htext := Node.isPlainString_of_not_any hkind hplain
      exact ⟨n, hn, htext, rfl, Text.unquote_infix n.text⟩
  | case3 n hkind hfreeze hreceiver => cases h
  | case4 n hkind hfreeze receiver hreceiver ih => exact ih (hn.child? hreceiver) h
  | case5 n hkind hother => cases h
  | case6 n hstring hcall => cases h

/-! ## Constants -/

/-- The constants that are made in a part of a file have values that are spelled there. -/
theorem spells_of_mem_constantsIn {around : List String} {name : String} (hn : root.Within n)
    (h : (name, text) ∈ constantsIn around n) : Spells root text := by
  induction around, n using constantsIn.induct with
  | case1 around n inner ih =>
      rw [constantsIn] at h
      rcases List.mem_append.1 h with hown | hinner
      · split at hown
        · have hassigned := Option.mem_toList.1 hown
          unfold assignedConstant? at hassigned
          split at hassigned
          next left value hleft hvalue =>
            obtain ⟨right, hright, hliteral⟩ := Option.bind_eq_some_iff.1 hvalue
            have hspells := spells_of_literal (hn.child? hright) hliteral
            split at hassigned
            · cases hassigned
              exact hspells
            · cases hassigned
              exact hspells
            · cases hassigned
          · cases hassigned
        · cases hown
      · obtain ⟨⟨child, hchild⟩, -, hmem⟩ := List.mem_flatMap.1 hinner
        exact ih child hchild (hn.namedChildren hchild) hmem

/-- The constants of a file have values that are spelled there. -/
theorem spells_of_mem_constants {name : String} (h : (name, text) ∈ Constants.ofTree root) :
    Spells root text :=
  spells_of_mem_constantsIn .root (Named.mem_of_mem_ofEntries h)

/-- The constants of a directory have values that are spelled in one of its files. -/
theorem spells_of_mem_constantsOfDirectory {fs : FileSystem} {directory : Path} {name : String}
    (h : (name, text) ∈ constantsOfDirectory fs directory) :
    ∃ file ∈ rubyFiles fs directory, Spells (read ⟨file.2⟩) text := by
  -- the table so far goes along with the induction on the files
  suffices hfold : ∀ (files : List (Path × ByteArray)) (constants : Constants),
      (name, text) ∈ files.foldl (fun (constants : Constants) file =>
        constants.merge (Constants.ofTree (read ⟨file.2⟩))) constants →
      (name, text) ∈ constants ∨ ∃ file ∈ files, Spells (read ⟨file.2⟩) text by
    rcases hfold _ _ h with hnil | hfile
    · cases hnil
    · exact hfile
  intro files
  induction files with
  | nil => exact fun constants hmem => .inl hmem
  | cons file rest ih =>
      intro constants hmem
      rcases ih _ hmem with hmerge | ⟨other, hother, hspells⟩
      · rcases Named.mem_of_mem_merge hmerge with hconstants | hfile
        · exact .inl hconstants
        · exact .inr ⟨file, List.mem_cons_self, spells_of_mem_constants hfile⟩
      · exact .inr ⟨other, List.mem_cons_of_mem file hother, hspells⟩

/-- The distinct paths are among the paths. -/
theorem mem_of_mem_distinctPaths {paths : List Path} {path : Path}
    (h : path ∈ distinctPaths paths) : path ∈ paths := by
  induction paths using distinctPaths.induct with
  | case1 p q rest hsame ih =>
      rw [distinctPaths, if_pos hsame] at h
      rcases List.mem_cons.1 (ih h) with rfl | hrest
      · exact List.mem_cons_self
      · exact List.mem_cons_of_mem _ (List.mem_cons_of_mem _ hrest)
  | case2 p q rest hsame ih =>
      rw [distinctPaths, if_neg hsame] at h
      rcases List.mem_cons.1 h with rfl | hrest
      · exact List.mem_cons_self
      · exact List.mem_cons_of_mem _ (ih hrest)
  | case3 paths hpaths =>
      rwa [distinctPaths] at h
      exact hpaths

/-- A directory with a Ruby file that spells `text`. -/
def SpellsIn (fs : FileSystem) (directory : Path) (text : String) : Prop :=
  ∃ file ∈ rubyFiles fs directory, Spells (read ⟨file.2⟩) text

/-- The constants of an index have values that are spelled in its directories. -/
theorem spells_of_mem_directories {fs : FileSystem} {files : List Path} {name : String}
    {entry : Path × Constants} (hentry : entry ∈ (ConstantIndex.ofFiles fs files).directories)
    (h : (name, text) ∈ entry.2) :
    ∃ directory ∈ files.filterMap Path.parent?, SpellsIn fs directory text := by
  obtain ⟨directory, hdirectory, rfl⟩ := List.mem_map.1 hentry
  refine ⟨directory, ?_, spells_of_mem_constantsOfDirectory h⟩
  exact List.mem_mergeSort.1 (mem_of_mem_distinctPaths hdirectory)

namespace ConstantIndex

variable {index : ConstantIndex} {directory : Path} {name : String}

/-- The tables that a directory sees are tables of the index. -/
theorem exists_of_mem_seenFrom {table : Constants} (h : table ∈ index.seenFrom directory) :
    ∃ entry ∈ index.directories, entry.2 = table := by
  rw [seenFrom, List.partition_eq_filter_filter] at h
  obtain ⟨entry, hentry, rfl⟩ := List.mem_map.1 h
  refine ⟨entry, ?_, rfl⟩
  rcases List.mem_append.1 hentry with hown | hother
  · exact (List.mem_filter.1 hown).1
  · exact (List.mem_filter.1 hother).1

/-- A constant that is found by its ending is in one of the tables. -/
theorem mem_of_bySuffix? {tables : List Constants} (h : bySuffix? tables name = some text) :
    ∃ table ∈ tables, ∃ key, (key, text) ∈ table := by
  unfold bySuffix? at h
  dsimp only at h
  split at h
  · cases h
  next first rest hfound =>
    split at h
    · cases h
      obtain ⟨entry, hentry, rfl⟩ := List.mem_map.1 (hfound ▸ List.mem_cons_self)
      obtain ⟨table, htable, hentry⟩ := List.mem_flatMap.1 hentry
      exact ⟨table, htable, entry.1, (List.mem_filter.1 hentry).1⟩
    · cases h

/-- An index resolves names to the values of its constants. -/
theorem mem_of_resolve? {around : List String}
    (h : index.resolve? directory name around = some text) :
    ∃ entry ∈ index.directories, ∃ key, (key, text) ∈ entry.2 := by
  suffices htable : ∃ table ∈ index.seenFrom directory, ∃ key, (key, text) ∈ table by
    obtain ⟨table, hseen, key, hkey⟩ := htable
    obtain ⟨entry, hentry, rfl⟩ := exists_of_mem_seenFrom hseen
    exact ⟨entry, hentry, key, hkey⟩
  rcases Option.or_eq_some_iff.1 h with hname | ⟨-, hsuffix⟩
  · obtain ⟨table, htable, hfound⟩ := List.exists_of_findSome?_eq_some hname
    obtain ⟨candidate, -, hvalue⟩ := List.exists_of_findSome?_eq_some hfound
    exact ⟨table, htable, Named.mem_of_find? hvalue⟩
  · exact mem_of_bySuffix? hsuffix

end ConstantIndex

/-! ## Values of names -/

/-- The hash that an expression is stands in the file. -/
theorem within_hashOf? {hash : Site} (hs : root.Within s.node) (h : hashOf? s = some hash) :
    root.Within hash.node := by
  fun_induction hashOf? s with
  | case1 s hkind =>
      cases h
      exact hs
  | case2 s hkind hmethod hreceiver => cases h
  | case3 s hkind hmethod receiver hreceiver ih => exact ih (Site.within_child? hs hreceiver) h
  | case4 s hkind hmethod => cases h
  | case5 s hkind hinner => cases h
  | case6 s hkind inner hinner ih => exact ih (Site.within_first? hs hinner) h
  | case7 s hhash hcall hparenthesized => cases h

/-- The sites, the last ones first, stand in the file. -/
theorem within_of_mem_lastFirst {c : Site} (hs : root.Within s.node) (h : c ∈ lastFirst s) :
    root.Within c.node := by
  induction s using lastFirst.induct with
  | case1 s ih =>
      rw [lastFirst] at h
      rcases List.mem_cons.1 h with rfl | hinner
      · exact hs
      · obtain ⟨⟨child, hchild⟩, -, hmem⟩ := List.mem_flatMap.1 hinner
        exact ih child hchild (Site.within_children hs (List.mem_reverse.1 hchild)) hmem

/-- What the names of a file stand for stems from the file. -/
structure Unit.StemsFrom (u : Unit) (root : Node) : Prop where
  constants : ∀ {name text : String}, (name, text) ∈ u.constants → Spells root text
  hashes : ∀ entry ∈ u.hashes, root.Within entry.2.node

/-- All that a file declares stems from it. -/
theorem Unit.stemsFrom_ofTree (index : Option ConstantIndex) (path : Path) (root : Node) :
    (Unit.ofTree index path root).StemsFrom root := by
  refine ⟨spells_of_mem_constants, fun entry hentry => ?_⟩
  obtain ⟨place, hplace, hassigned⟩ := List.mem_filterMap.1 hentry
  have hwithin := within_of_mem_lastFirst .root (List.mem_filter.1 hplace).1
  unfold assignedHash? at hassigned
  split at hassigned
  next left hash hleft hhash =>
    cases hassigned
    obtain ⟨right, hright, hhash⟩ := Option.bind_eq_some_iff.1 hhash
    exact within_hashOf? (Site.within_child? hwithin hright) hhash
  · cases hassigned

/-- The texts that a file knows: those that it spells, and the values of the constants of the
index. -/
def Knows (index : Option ConstantIndex) (root : Node) (text : String) : Prop :=
  Spells root text ∨
    ∃ known ∈ index, ∃ entry ∈ known.directories, ∃ name, (name, text) ∈ entry.2

variable {u : Unit}

/-- The text of an argument is spelled in the file or the value of a constant of the index. -/
theorem knows_of_eventName (hu : u.StemsFrom root) (hs : root.Within s.node)
    (h : eventName? u s = some text) : Knows u.index root text := by
  rcases Option.or_eq_some_iff.1 h with hliteral | ⟨-, hconstant⟩
  · exact .inl (spells_of_literal hs hliteral)
  · split at hconstant
    · rcases Option.or_eq_some_iff.1 hconstant with hindex | ⟨-, hown⟩
      · obtain ⟨index, hsome, hresolve⟩ := Option.bind_eq_some_iff.1 hindex
        exact .inr ⟨index, hsome, ConstantIndex.mem_of_resolve? hresolve⟩
      · obtain ⟨name, -, hfound⟩ := List.exists_of_findSome?_eq_some hown
        obtain ⟨key, hkey⟩ := Named.mem_of_find? hfound
        exact .inl (hu.constants hkey)
    · cases hconstant

/-- The hash that an expression leads to stands in the file. -/
theorem within_resolveHash? {hash : Site} (hu : u.StemsFrom root) (hs : root.Within s.node)
    (h : u.resolveHash? s = some hash) : root.Within hash.node := by
  unfold Unit.resolveHash? at h
  split at h
  next own hown =>
    cases h
    exact within_hashOf? hs hown
  · split at h
    · obtain ⟨entry, hentry, rfl⟩ := Option.map_eq_some_iff.1 h
      exact hu.hashes entry (List.mem_filter.1 (List.mem_of_getLast? hentry)).1
    · cases h

/-! ## Events -/

/-- The arguments of a call stand in the file. -/
theorem within_argumentsOf {argument : Site} (hs : root.Within s.node)
    (h : argument ∈ argumentsOf s) : root.Within argument.node := by
  unfold argumentsOf at h
  split at h
  · cases h
  next list hlist => exact Site.within_children (Site.within_child? hs hlist) h

variable {arguments : List Site}

/-- The positional arguments stand in the file. -/
theorem within_positional {argument : Site} {place : Nat}
    (hs : ∀ argument ∈ arguments, root.Within argument.node)
    (h : (positional arguments)[place]? = some argument) : root.Within argument.node :=
  hs argument (List.mem_filter.1 (List.mem_of_getElem? h)).1

/-- The keyword arguments stand in the file. -/
theorem within_keywords? {keywords : List (String × Site)} (hu : u.StemsFrom root)
    (hs : ∀ argument ∈ arguments, root.Within argument.node)
    (h : keywords? u arguments = some keywords) :
    ∀ entry ∈ keywords, root.Within entry.2.node := by
  obtain ⟨pairs, hpairs, rfl⟩ := Option.map_eq_some_iff.1 h
  have hwithin : ∀ pair ∈ pairs, root.Within pair.node := by
    split at hpairs
    · cases hpairs
      exact hs
    · obtain ⟨hash, hhash, rfl⟩ := Option.map_eq_some_iff.1 hpairs
      obtain ⟨first, hfirst, hhash⟩ := Option.bind_eq_some_iff.1 hhash
      have hfirst := hs first (List.mem_of_mem_head? hfirst)
      exact fun pair hpair => Site.within_children (within_resolveHash? hu hfirst hhash) hpair
  intro entry hentry
  obtain ⟨pair, hpair, hentry⟩ := List.mem_filterMap.1 hentry
  split at hentry
  next key value hkey hvalue =>
    cases hentry
    exact Site.within_child? (hwithin pair (List.mem_filter.1 hpair).1) hvalue
  · cases hentry

/-- The text of a keyword argument is known to the file or the index. -/
theorem knows_of_lookup {keywords : List (String × Site)} {key : String} (hu : u.StemsFrom root)
    (hs : ∀ entry ∈ keywords, root.Within entry.2.node)
    (h : (keywords.lookup key).bind (eventName? u) = some text) : Knows u.index root text := by
  obtain ⟨value, hvalue, hname⟩ := Option.bind_eq_some_iff.1 h
  exact knows_of_eventName hu (hs _ (Named.mem_of_lookup hvalue)) hname

variable {properties : Properties}

/-- The name that keyword arguments give is known to the file or the index. -/
theorem knows_of_fromKeywords? {keys : Keys} {keywords : List (String × Site)}
    (hu : u.StemsFrom root) (hs : ∀ entry ∈ keywords, root.Within entry.2.node)
    (h : fromKeywords? u keys keywords = some (text, properties)) : Knows u.index root text := by
  obtain ⟨name, hname, hpair⟩ := Option.bind_eq_some_iff.1 h
  cases hpair
  exact knows_of_lookup hu hs hname

/-- The name at the place of an argument is known to the file or the index. -/
theorem knows_of_place {place : Nat} (hu : u.StemsFrom root)
    (hs : ∀ argument ∈ arguments, root.Within argument.node)
    (h : (positional arguments)[place]?.bind (eventName? u) = some text) :
    Knows u.index root text := by
  obtain ⟨argument, hargument, hname⟩ := Option.bind_eq_some_iff.1 h
  exact knows_of_eventName hu (within_positional hs hargument) hname

/-- A provider's method takes the name of its event from a text that the file knows. -/
theorem knows_of_sent? {provider : Provider} (hu : u.StemsFrom root)
    (hs : ∀ argument ∈ arguments, root.Within argument.node)
    (h : sent? u provider arguments = some (text, properties)) : Knows u.index root text := by
  unfold sent? at h
  cases provider with
  | segment | rudderstack | posthog =>
      obtain ⟨keywords, hkeywords, h⟩ := Option.bind_eq_some_iff.1 h
      exact knows_of_fromKeywords? hu (within_keywords? hu hs hkeywords) h
  | mixpanel =>
      obtain ⟨name, hname, hpair⟩ := Option.bind_eq_some_iff.1 h
      cases hpair
      exact knows_of_place hu hs hname
  | amplitude =>
      obtain ⟨made, hmade, h⟩ := Option.bind_eq_some_iff.1 h
      obtain ⟨maker, -, h⟩ := Option.bind_eq_some_iff.1 h
      obtain ⟨hmade, -⟩ := Option.filter_eq_some_iff.1 hmade
      have hwithin := within_positional hs (List.head?_eq_getElem? ▸ hmade)
      split at h
      · obtain ⟨keywords, hkeywords, h⟩ := Option.bind_eq_some_iff.1 h
        refine knows_of_fromKeywords? hu
          (within_keywords? hu (fun argument hargument => ?_) hkeywords) h
        exact within_argumentsOf hwithin hargument
      · cases h
  | snowplow =>
      obtain ⟨keywords, hkeywords, h⟩ := Option.bind_eq_some_iff.1 h
      obtain ⟨name, hname, hpair⟩ := Option.bind_eq_some_iff.1 h
      cases hpair
      exact knows_of_lookup hu (within_keywords? hu hs hkeywords) hname
  | mparticle | pendo | heap | datadog | gtm | googleAnalytics | custom => cases h

/-- A call takes the name of its event from a text that the file knows. -/
theorem knows_of_event? {signatures : List Signature} {path : Path} {call : Site} {event : Event}
    (hu : u.StemsFrom root) (hcall : root.Within call.node)
    (h : event? u signatures path call = some event) : Knows u.index root event.name := by
  have harguments : ∀ argument ∈ argumentsOf call, root.Within argument.node :=
    fun argument hargument => within_argumentsOf hcall hargument
  obtain ⟨⟨provider, name, properties⟩, hpayload, rfl⟩ := Option.map_eq_some_iff.1 h
  obtain ⟨callee, -, hpayload⟩ := Option.bind_eq_some_iff.1 hpayload
  dsimp only at hpayload
  split at hpayload
  · obtain ⟨⟨name, properties⟩, hcustom, hpair⟩ := Option.bind_eq_some_iff.1 hpayload
    cases hpair
    obtain ⟨name, hname, hpair⟩ := Option.bind_eq_some_iff.1 hcustom
    cases hpair
    exact knows_of_place hu harguments hname
  · obtain ⟨provider, -, hpayload⟩ := Option.bind_eq_some_iff.1 hpayload
    obtain ⟨⟨name, properties⟩, hsent, hpair⟩ := Option.bind_eq_some_iff.1 hpayload
    cases hpair
    exact knows_of_sent? hu harguments hsent

/-- The calls from a site on stand in the file. -/
theorem within_of_mem_callsFrom {depth : Nat} {call : Site} (hs : root.Within s.node)
    (h : call ∈ callsFrom depth s) : root.Within call.node := by
  induction depth, s using callsFrom.induct with
  | case1 depth s hdepth =>
      rw [callsFrom, if_pos hdepth] at h
      cases h
  | case2 depth s hdepth deeper ih =>
      rw [callsFrom, if_neg hdepth] at h
      rcases List.mem_append.1 h with hown | hinner
      · split at hown
        · cases List.mem_singleton.1 hown
          exact hs
        · cases hown
      · obtain ⟨⟨child, hchild⟩, -, hmem⟩ := List.mem_flatMap.1 hinner
        exact ih child hchild (Site.within_children hs hchild) hmem

/-- Every event of a Ruby file has a name that the file spells or that is the value of a
constant. -/
theorem knows_of_mem_events {index : Option ConstantIndex} {signatures : List Signature}
    {path : Path} {event : Event} (h : event ∈ events index signatures path root) :
    Knows index root event.name := by
  obtain ⟨call, hcall, h⟩ := List.mem_filterMap.1 h
  exact knows_of_event? (Unit.stemsFrom_ofTree index path root)
    (within_of_mem_callsFrom .root hcall) h

end Ruby

end TrackingPlan
