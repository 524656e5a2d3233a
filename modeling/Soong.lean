import Soong.Lib.Dedup
import Soong.Lib.GoMap
import Soong.Lib.GoPath
import Soong.Android.DepSet
import Soong.Android.DepSetToList
import Soong.Android.Namespace
import Soong.Android.Visibility
import Soong.Bazel.Properties
import Soong.Finder.Db
import Soong.Bazel.Aquery
import Soong.Jar.Order
import Soong.MergeZips.Merge
import Soong.Lib.DLList
import Soong.MergeZips.InputZipsManager
import Soong.Lib.GoText
import Soong.Androidmk.MakeStrings
import Soong.Androidmk.Parser
import Soong.Makedeps.Deps
import Soong.Makedeps.RoundTrip
import Soong.Response.RspFile
import Soong.Lib.Interleave
import Soong.Ui.Status
import Soong.Ui.Format
import Soong.Androidmk.Split
import Soong.Androidmk.Words
import Soong.Dexpreopt.ClassLoaderContext
import Soong.Android.Util
import Soong.Bazel.Collapse
import Soong.Android.Expand
import Soong.Lib.SortSearch
import Soong.Android.Paths
import Soong.Bazel.Partition
import Soong.Lib.GoRegexp
import Soong.ExtractApks.Main
import Soong.Mk2rbc.Expr
import Soong.Android.Apex
import Soong.Lib.Acyclic
import Soong.Bazel.InputPaths
import Soong.Finder.Search
import Soong.Bazel.Configurability
import Soong.Lib.InPlace
import Soong.Android.FirstUnique
import Soong.Lib.Utf8
import Soong.Ui.Escapes
import Soong.Lib.PyStr
import Soong.Hiddenapi.SignatureTrie
import Soong.Cc.SymbolFile
import Soong.Cc.NdkStubGen
import Soong.Cc.VersionScript
import Soong.Dexpreopt.Compute
import Soong.Dexpreopt.Json
import Soong.Android.NameInterface
