import LuaCompact.Blank

namespace LuaCompact.ListSetting

abbrev comma : UInt8 := 44

/-- The items of a list that is written with commas, trimmed, without the empty ones. -/
def split (s : Bytes) : List Bytes := ((s.splitOn comma).map trim).filter (· ≠ [])

/-- A list written with commas. -/
def join (items : List Bytes) : Bytes := List.intercalate [comma] items

end LuaCompact.ListSetting
