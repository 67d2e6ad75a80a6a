import Bg3le.Bytes
import Bg3le.Engine.FixedStringMapTheorems
import Bg3le.Engine.NumberMapTheorems
import Bg3le.Engine.StringTable
import Bg3le.Engine.StringTableTheorems
import Bg3le.Guid
import Bg3le.Imgui.RetiredTheorems
import Bg3le.Install.LaunchOptionsTheorems
import Bg3le.Install.SetLaunchOptionsTheorems
import Bg3le.Json.Binary
import Bg3le.Json.BinaryRoundTrip
import Bg3le.Json.BinaryTheorems
import Bg3le.Json.Options
import Bg3le.Json.OptionsTheorems
import Bg3le.Json.Stringify
import Bg3le.Library.Chains
import Bg3le.Library.DepthFirst
import Bg3le.Library.FloatWord
import Bg3le.Library.JsonTextTheorems
import Bg3le.Library.LittleEndian
import Bg3le.Library.NumberText
import Bg3le.Library.Regex
import Bg3le.Library.Rounding
import Bg3le.Library.Run
import Bg3le.Library.Since
import Bg3le.Library.TaggedStack
import Bg3le.Library.TextSearch
import Bg3le.Loca.IndexTheorems
import Bg3le.Loca.RepositoryLockTheorems
import Bg3le.Loca.TextPoolTheorems
import Bg3le.Loca.TranslatedStringsTheorems
import Bg3le.Lua.ComponentEventsTheorems
import Bg3le.Lua.EntityEventsTheorems
import Bg3le.Lua.ExtrasTheorems
import Bg3le.Lua.LoadOrderTheorems
import Bg3le.Lua.RequireTheorems
import Bg3le.Lua.SubscribableEventTheorems
import Bg3le.Lua.SystemUpdateTheorems
import Bg3le.Lua.TimerTheorems
import Bg3le.Memory.FastAllocTheorems
import Bg3le.Meta.LegacyNodesTheorems
import Bg3le.Meta.MapRebuildTheorems
import Bg3le.Meta.ResolvePathTheorems
import Bg3le.Meta.SetAssign
import Bg3le.Meta.SetAssignTheorems
import Bg3le.Meta.WriteFieldTheorems
import Bg3le.ModSettings.Lsx
import Bg3le.ModSettings.LsxTheorems
import Bg3le.ModSettings.OrderedTheorems
import Bg3le.Net.DebugServerTheorems
import Bg3le.Net.DrainTheorems
import Bg3le.Net.PeersTheorems
import Bg3le.Net.RequestsTheorems
import Bg3le.Net.RoundTripTheorems
import Bg3le.Net.SpreadTheorems
import Bg3le.Net.SyncVarsTheorems
import Bg3le.Osiris.FunctionTreeTheorems
import Bg3le.Osiris.ListenersTheorems
import Bg3le.Osiris.NodeHooksTheorems
import Bg3le.Osiris.TupleTheorems
import Bg3le.Pak.AgainTheorems
import Bg3le.Pak.ArchiveTheorems
import Bg3le.Pak.FixBuild
import Bg3le.Pak.FixBuildTheorems
import Bg3le.Pak.InflateCheckedTheorems
import Bg3le.Pak.InflateTheorems
import Bg3le.Pak.LsfTheorems
import Bg3le.Pak.RedirectTheorems
import Bg3le.Plugins.SettingsTheorems
import Bg3le.Resolve.CodeTheorems
import Bg3le.Savegame.SerializerTheorems
import Bg3le.Savegame.VisitsTheorems
import Bg3le.Stats.LegacyMapTheorems
import Bg3le.Stats.ManagerTheorems
import Bg3le.Stats.NameIndexTheorems
import Bg3le.Stats.PassiveSyncTheorems
import Bg3le.Stats.PoolsTheorems
import Bg3le.Stats.StatObjectTheorems
import Bg3le.Stats.TreasureTheorems
