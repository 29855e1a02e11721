import ApiReview.Settings.File

/-!
# Built-in settings

The document that is laid under every loaded one.
-/

namespace ApiReview.Settings

/-- A rule of the built-in document. -/
def defaultRule (level : Level) (addToReport : Bool) : Json :=
  .object (("logLevel", .string level.word) ::
    if addToReport then [("addToApiReportFile", .boolean true)] else [])

/-- The built-in document. -/
def defaults : Json :=
  .object
    [("projectFolder", .string "<lookup>"),
      ("additionalEntryPoints", .array []),
      ("bundledPackages", .array []),
      ("compiler", .object
        [("tsconfigFilePath", .string "<projectFolder>/tsconfig.json"),
          ("skipLibCheck", .boolean false)]),
      ("apiReport", .object
        [("enabled", .boolean false),
          ("reportFileName", .string "<unscopedPackageName>"),
          ("reportFolder", .string "<projectFolder>/etc/"),
          ("reportTempFolder", .string "<projectFolder>/temp/"),
          ("reportVariants", .array [.string "complete"]),
          ("includeForgottenExports", .boolean false),
          ("tagsToReport", .object [])]),
      ("docModel", .object
        [("enabled", .boolean false),
          ("apiJsonFilePath", .string "<projectFolder>/temp/<unscopedPackageName>.api.json"),
          ("includeForgottenExports", .boolean false),
          ("releaseTagsToTrim", .array [.string "@internal"])]),
      ("dtsRollup", .object
        [("enabled", .boolean false),
          ("untrimmedFilePath", .string "<projectFolder>/dist/<unscopedPackageName>.d.ts"),
          ("alphaTrimmedFilePath", .string ""),
          ("betaTrimmedFilePath", .string ""),
          ("publicTrimmedFilePath", .string ""),
          ("omitTrimmingComments", .boolean false)]),
      ("tsdocMetadata", .object
        [("enabled", .boolean true),
          ("tsdocMetadataFilePath", .string "<lookup>")]),
      ("newlineKind", .string "crlf"),
      ("testMode", .boolean false),
      ("enumMemberOrder", .string "by-name"),
      ("messages", .object
        [("compilerMessageReporting", .object [("default", defaultRule .warning false)]),
          ("extractorMessageReporting", .object
            [("default", defaultRule .warning false),
              ("ae-forgotten-export", defaultRule .warning true),
              ("ae-incompatible-release-tags", defaultRule .warning true),
              ("ae-internal-missing-underscore", defaultRule .warning true),
              ("ae-internal-mixed-release-tag", defaultRule .warning true),
              ("ae-missing-release-tag", defaultRule .warning true),
              ("ae-undocumented", defaultRule .silent false),
              ("ae-unresolved-inheritdoc-reference", defaultRule .warning true),
              ("ae-unresolved-inheritdoc-base", defaultRule .warning true),
              ("ae-unresolved-link", defaultRule .warning true),
              ("ae-wrong-input-file-type", defaultRule .error false)]),
          ("tsdocMessageReporting", .object [("default", defaultRule .warning false)])])]

end ApiReview.Settings
