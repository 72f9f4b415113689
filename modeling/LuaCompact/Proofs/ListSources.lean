import LuaCompact.Proofs.ListItems
import LuaCompact.Proofs.RepeatedOption
import LuaCompact.Proofs.WrittenSettings
import Mathlib

namespace LuaCompact

open Yaml (Value)

/-- A text that is one item wherever lists are written: not empty, trimmed, and without commas,
double quotes and line breaks. -/
structure IsPlainItem (item : Bytes) : Prop where
  ne_nil : item ≠ []
  trimmed : trim item = item
  comma_notMem : ListSetting.comma ∉ item
  quote_notMem : Byte.doubleQuote ∉ item
  cr_notMem : Byte.cr ∉ item
  lf_notMem : Byte.lf ∉ item

namespace IsPlainItem

variable {item : Bytes}

theorem isItem (plain : IsPlainItem item) : ListSetting.IsItem item :=
  ⟨plain.ne_nil, plain.comma_notMem, plain.trimmed⟩

theorem isField (plain : IsPlainItem item) : Csv.IsField item :=
  ⟨plain.ne_nil, plain.comma_notMem, plain.quote_notMem, plain.cr_notMem, plain.lf_notMem⟩

instance : DecidablePred IsPlainItem := fun item =>
  decidable_of_iff (item ≠ [] ∧ trim item = item ∧ ListSetting.comma ∉ item ∧
      Byte.doubleQuote ∉ item ∧ Byte.cr ∉ item ∧ Byte.lf ∉ item)
    ⟨fun ⟨a, b, c, d, e, f⟩ => ⟨a, b, c, d, e, f⟩, fun ⟨a, b, c, d, e, f⟩ => ⟨a, b, c, d, e, f⟩⟩

end IsPlainItem

namespace Settings

theorem items_list {items : List Bytes} (good : ∀ item ∈ items, ListSetting.IsItem item) :
    Settings.items (.list (items.map .string)) = items := by
  have texts : (items.map Value.string).map Value.text = items := by
    rw [List.map_map]
    exact List.map_id'' (fun item => by rw [Function.comp_apply, Value.text]) items
  rw [Settings.items, texts, ListSetting.split_join good]

theorem items_string {items : List Bytes} (good : ∀ item ∈ items, ListSetting.IsItem item) :
    Settings.items (.string (ListSetting.join items)) = items := by
  rw [Settings.items, Value.settingText, Value.text, ListSetting.split_join good]
  all_goals simp

theorem ofItems_eq {items : List Bytes} (plain : ∀ item ∈ items, IsPlainItem item) :
    ofItems items = .list (items.map .string) := by
  rw [ofItems]
  congr 1
  refine List.map_congr_left fun item mem => ?_
  rw [Bytes.replace_of_notMem (plain item mem).cr_notMem]

end Settings

namespace ListKey

open Settings

/-- A list is loaded as `items` whenever the file of settings can be read, or is missing, and the
mode names a policy. -/
def Loads (k : ListKey) (items : List Bytes) (fs : FileSystem) (dir : Bytes) (env : Environment)
    (o : Options) : Prop :=
  ∀ file policy, readFile fs dir = .ok file →
    Policy.parse (value o env file .mode).settingText = .ok policy →
    (load fs dir env o).map k.ofSettings = .ok items

variable {k : ListKey} {items : List Bytes} {fs : FileSystem} {dir : Bytes} {env : Environment}
  {o : Options} {file : List (Bytes × Value)}

theorem map_load {policy : Policy} (read : readFile fs dir = .ok file)
    (known : Policy.parse (value o env file .mode).settingText = .ok policy) :
    (load fs dir env o).map k.ofSettings = .ok (Settings.items (value o env file k.key)) := by
  simp only [load, read, ofValues, known]
  cases k <;> rfl

theorem loads_of_value (same : ∀ file, readFile fs dir = .ok file →
    Settings.items (value o env file k.key) = items) : k.Loads items fs dir env o := by
  intro file policy read known
  rw [map_load read known, same file read]

theorem ofOptions_key (k : ListKey) (o : Options) :
    Settings.ofOptions o k.key = (k.ofOptions o).map ofItems := by
  cases k <;> rfl

theorem value_of_options (given : k.ofOptions o = some items) :
    value o env file k.key = ofItems items := by
  rw [value, ofOptions_key, given]
  rfl

theorem value_of_environment {text : Bytes} (unset : k.ofOptions o = none)
    (given : env.lookup k.key.variable_ = some text) (nonempty : text ≠ []) :
    value o env file k.key = .string text := by
  rw [value, ofOptions_key, unset, ofEnvironment, given, Option.filter_some,
    if_pos (by simpa using nonempty)]
  rfl

theorem value_of_file {v : Value} (unset : k.ofOptions o = none)
    (unset' : ofEnvironment env k.key = none) (given : file.lookup k.key.name = some v)
    (nonnull : v ≠ .null) : value o env file k.key = v := by
  rw [value, ofOptions_key, unset, unset', ofFile, given]
  cases v <;> first | contradiction | rfl

theorem join_ne_nil (nonempty : items ≠ []) (plain : ∀ item ∈ items, IsPlainItem item) :
    ListSetting.join items ≠ [] := by
  intro empty
  have whole := ListSetting.split_join fun item mem => (plain item mem).isItem
  rw [empty] at whole
  exact nonempty (whole.symm.trans (ListSetting.split_join (List.forall_mem_nil _)))

theorem exists_texts (valid : ∀ item ∈ items, Utf8.isValid item) :
    ∃ texts : List (List Char), texts.map Yaml.bytesOf = items := by
  induction items with
  | nil => exact ⟨[], rfl⟩
  | cons item items ih =>
    obtain ⟨first, others⟩ := List.forall_mem_cons.mp valid
    obtain ⟨cs, rfl⟩ := Utf8.isValid_iff.mp first
    obtain ⟨texts, rfl⟩ := ih others
    exact ⟨cs :: texts, rfl⟩

theorem bytesOf_intercalate (texts : List (List Char)) :
    Yaml.bytesOf ([','].intercalate texts) = ListSetting.join (texts.map Yaml.bytesOf) := by
  induction texts with
  | nil => rfl
  | cons text texts ih =>
    cases texts with
    | nil => simp [ListSetting.join]
    | cons next texts =>
      rw [List.intercalate_cons_cons, Yaml.bytesOf_append, Yaml.bytesOf_append, ih]
      exact List.intercalate_cons_cons.symm

/-- A list of valid items can be written in a file of settings, as a list and as one string. -/
theorem exists_written (k : ListKey) (valid : ∀ item ∈ items, Utf8.isValid item) :
    ∃ listed joined,
      Yaml.settings? listed = some [(k.key.name, .list (items.map .string))] ∧
      Yaml.settings? joined = some [(k.key.name, .string (ListSetting.join items))] := by
  obtain ⟨texts, rfl⟩ := exists_texts valid
  obtain ⟨name, short, same⟩ : ∃ name, (Yaml.quoted name).length ≤ 1024 ∧
      Unicode.lowerCase (Yaml.bytesOf name) = k.key.name := by
    cases k
    · exact ⟨"include".toList, by decide_cbv⟩
    · exact ⟨"exclude".toList, by decide_cbv⟩
  have listed := Yaml.settings?_listed texts short
  have joined := Yaml.settings?_quoted ([','].intercalate texts) short
  rw [same] at listed joined
  rw [bytesOf_intercalate] at joined
  exact ⟨_, _, listed, joined⟩

end ListKey

/-- Lists mean the same from every source. A comma divides a written list into two, and what is read
from one are items that are not empty, hold no comma and are trimmed. So the same items are loaded
when they are given by one option each, in a variable of the environment with commas between them,
or in the file of settings as a list or as one string with commas, if nothing that comes before the
source sets the list. Every list of valid items can be written in a file in both ways. -/
theorem lists_alike_from_every_source :
    (∀ s t, ListSetting.split (s ++ ListSetting.comma :: t) =
      ListSetting.split s ++ ListSetting.split t) ∧
    (∀ s, ∀ item ∈ ListSetting.split s,
      item ≠ [] ∧ ListSetting.comma ∉ item ∧ trim item = item) ∧
    ∀ (k : ListKey) (items : List Bytes), items ≠ [] → (∀ item ∈ items, IsPlainItem item) →
      (∀ known rest args o plain, k.switch ∈ known →
        Options.Repeats known k.switch items rest args →
        Options.parse known .empty rest = .ok (o, plain) →
        ∃ o', Options.parse known .empty args = .ok (o', plain) ∧
          ∀ fs dir env, k.Loads items fs dir env o') ∧
      (∀ fs dir env o, k.ofOptions o = none →
        (env.lookup k.key.variable_ = some (ListSetting.join items) →
          k.Loads items fs dir env o) ∧
        ∀ file, Settings.ofEnvironment env k.key = none → Settings.readFile fs dir = .ok file →
          (file.lookup k.key.name = some (.list (items.map .string)) ∨
            file.lookup k.key.name = some (.string (ListSetting.join items))) →
          k.Loads items fs dir env o) ∧
      ((∀ item ∈ items, Utf8.isValid item) → ∃ listed joined,
        Yaml.settings? listed = some [(k.key.name, .list (items.map .string))] ∧
        Yaml.settings? joined = some [(k.key.name, .string (ListSetting.join items))]) := by
  refine ⟨ListSetting.split_append, fun s item mem => ?_, fun k items nonempty plain => ?_⟩
  · have isItem := ListSetting.isItem_of_mem_split mem
    exact ⟨isItem.ne_nil, isItem.comma_notMem, isItem.trimmed⟩
  have areItems item (mem : item ∈ items) := (plain item mem).isItem
  refine ⟨fun known rest args o others listed repeats parsed => ?_, fun fs dir env o unset =>
    ⟨fun given => ?_, fun file unset' read given => ?_⟩, k.exists_written⟩
  · refine ⟨k.put (some items) o, ?_, fun fs dir env => ListKey.loads_of_value fun file _ => ?_⟩
    · have areFields item (mem : item ∈ items) := (plain item mem).isField
      have whole := Options.parse_repeats listed areFields repeats none .empty
      have empty : k.put none .empty = .empty := by cases k <;> rfl
      rw [empty, parsed, ListKey.extend, if_neg nonempty] at whole
      exact whole
    · rw [ListKey.value_of_options (k.ofOptions_put (some items) o), Settings.ofItems_eq plain,
        Settings.items_list areItems]
  · refine ListKey.loads_of_value fun file _ => ?_
    rw [ListKey.value_of_environment unset given (ListKey.join_ne_nil nonempty plain),
      Settings.items_string areItems]
  · refine ListKey.loads_of_value fun file' read' => ?_
    obtain rfl := Except.ok.inj (read'.symm.trans read)
    rcases given with given | given
    · rw [ListKey.value_of_file unset unset' given (by simp), Settings.items_list areItems]
    · rw [ListKey.value_of_file unset unset' given (by simp), Settings.items_string areItems]

/-- A directory with nothing but a file of settings. -/
def settingsFile (text : Bytes) : FileSystem :=
  ⟨[([Settings.fileName], .file text .zero)], [], .zero⟩

theorem readFile_settingsFile {text : Bytes} {file : List (Bytes × Value)}
    (read : Yaml.settings? text = some file) :
    Settings.readFile (settingsFile text) (utf8 ".") = .ok file := by
  have found : Settings.hasFile (settingsFile text) (utf8 ".") = true := by cbv
  have content : (settingsFile text).readFile (Settings.path (utf8 ".")) = .ok text := by cbv
  rw [Settings.readFile, if_pos found, content]
  simp only [read]

theorem lists_alike_from_every_source_sample :
    let items := [utf8 "a.lua", utf8 "lib/*.lua"]
    let env := [(utf8 "LUAMIN_INCLUDE", utf8 "a.lua,lib/*.lua")]
    let args := [utf8 "--include=a.lua", utf8 "-q", utf8 "src", utf8 "--include", utf8 "lib/*.lua"]
    let o : Options := ⟨none, some true, some items, none, false⟩
    ∃ listed joined,
      Options.parse [.quiet, .include_] .empty args = .ok (o, [utf8 "src"]) ∧
      ∀ given ∈ [(settingsFile joined, env, o), (settingsFile listed, env, .empty),
          (settingsFile listed, [], .empty), (settingsFile joined, [], .empty)],
        (Settings.load given.1 (utf8 ".") given.2.1 given.2.2).map (·.includes) = .ok items := by
  intro items env args o
  have plain : ∀ item ∈ items, IsPlainItem item := by decide +kernel
  have valid : ∀ item ∈ items, Utf8.isValid item := by decide_cbv
  obtain ⟨-, -, sources⟩ := lists_alike_from_every_source
  obtain ⟨fromOptions, fromOthers, written⟩ := sources .includes items (by decide) plain
  obtain ⟨listed, joined, isList, isString⟩ := written valid
  have others : Options.read [.quiet, .include_] (utf8 "-q") =
      .ok ⟨[(.quiet, utf8 "true")], none⟩ := by cbv
  have repeats : Options.Repeats [.quiet, .include_] .include_ items [utf8 "-q", utf8 "src"]
      [Options.flag .include_ ++ Byte.equals :: utf8 "a.lua", utf8 "-q", utf8 "src",
        Options.flag .include_, utf8 "lib/*.lua"] :=
    .joined _ (.other (by decide) (by decide) others (by decide)
      (.plain (by decide) (.apart _ .nil)))
  have parsed : Options.parse [.quiet, .include_] .empty [utf8 "-q", utf8 "src"] =
      .ok (⟨none, some true, none, none, false⟩, [utf8 "src"]) := by cbv
  have written : [Options.flag .include_ ++ Byte.equals :: utf8 "a.lua", utf8 "-q", utf8 "src",
      Options.flag .include_, utf8 "lib/*.lua"] = args := by decide
  rw [written] at repeats
  have whole : Options.parse [.quiet, .include_] .empty args = .ok (o, [utf8 "src"]) := by
    have areFields item (mem : item ∈ items) := (plain item mem).isField
    exact (Options.parse_repeats (k := .includes) (by decide) areFields repeats none .empty).trans
      (congrArg _ parsed)
  obtain ⟨o', parsed', loads⟩ := fromOptions _ _ _ _ _ (by decide) repeats parsed
  rw [whole] at parsed'
  obtain ⟨rfl, -⟩ := Prod.mk.inj (Except.ok.inj parsed')
  refine ⟨listed, joined, whole, ?_⟩
  have readList := readFile_settingsFile isList
  have readString := readFile_settingsFile isString
  have fromEnvironment := (fromOthers (settingsFile listed) (utf8 ".") env .empty rfl).1
    (by decide)
  have fromList := (fromOthers (settingsFile listed) (utf8 ".") [] .empty rfl).2 _ rfl readList
    (.inl rfl)
  have fromString := (fromOthers (settingsFile joined) (utf8 ".") [] .empty rfl).2 _ rfl readString
    (.inr rfl)
  simp only [List.forall_mem_cons]
  refine ⟨loads _ _ _ _ .literal readString ?_, fromEnvironment _ .literal readList ?_,
    fromList _ .literal readList ?_, fromString _ .literal readString ?_, List.forall_mem_nil _⟩
  all_goals cbv

end LuaCompact
